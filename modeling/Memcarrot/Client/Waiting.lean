import Memcarrot.Client.Conversation

open Incremental Relation Transition

namespace Memcarrot.Conversation

open ClientCall Item SimpleClient

variable {σ : Type} {P : Platform} {services : Services σ} {capacity bufferSize : Nat}
  {calls : List ClientCall} {call : ClientCall} {front bytes : List UInt8} {s : σ}
  {st next last : Conversation σ}

/-- A call has read the first five bytes of a response with records on their own. -/
structure Halted (call : ClientCall) (front : List UInt8) (st : Conversation σ) : Prop where
  calling : st.client.calling = .reading call
  kind : call.operation.cls.requestKind = none
  stuck : Stuck front st.client.buf
  front_ne : front ≠ END

theorem Halted.not_end (h : Halted call front st) : ¬ END <:+ front := fun hend =>
  h.front_ne (hend.eq_of_length h.stuck.length_front.symm).symm

theorem Halted.getResponse (h : Halted call front st) (U : CacheUtils) :
    call.getResponse P U st.client.buf = .ok (none, st.client.buf) := by
  obtain ⟨cas, hresponse⟩ := getResponse_of_retrieval (P := P) (U := U) h.kind
  simp only [hresponse, h.stuck.waits cas h.not_end]
  rfl

/-- There is no room for more bytes, and what is there is not the end. -/
theorem Halted.step (h : Halted call front st) {e : Event}
    (hstep : st.step P services bufferSize e = some next) :
    next.client = st.client ∧ next.fetched = st.fetched := by
  cases e with
  | begin => simp [Conversation.step, SimpleClient.begin, h.calling] at hstep
  | write count => simp [Conversation.step, SimpleClient.write, h.calling] at hstep
  | written => simp [Conversation.step, SimpleClient.written, h.calling] at hstep
  | read bytes =>
    simp only [Conversation.step, Option.ite_none_right_eq_some] at hstep
    obtain ⟨client, hread, rfl⟩ := Option.map_eq_some_iff.mp hstep.2
    simp only [SimpleClient.read, h.calling] at hread
    obtain ⟨buf, hput, hclient⟩ := Option.map_eq_some_iff.mp hread
    obtain ⟨rfl, rfl⟩ := h.stuck.put hput
    simp only [h.getResponse] at hclient
    refine ⟨?_, List.append_nil _⟩
    rw [← hclient, ← h.calling]
  | thread e =>
    simp only [Conversation.step] at hstep
    split at hstep
    · rw [Option.ite_none_right_eq_some, Option.some.injEq] at hstep
      obtain ⟨-, rfl⟩ := hstep
      exact ⟨rfl, rfl⟩
    · cases hstep

theorem Halted.run {allowed : Conversation σ → Event → Prop} (h : Halted call front st)
    (hrun : Runs (Conversation.step P services bufferSize) allowed st last) :
    last.client = st.client ∧ last.fetched = st.fetched := by
  induction hrun with
  | refl => exact ⟨rfl, rfl⟩
  | tail _ hlast ih =>
    obtain ⟨e, -, hstep⟩ := hlast
    obtain ⟨hclient, hfetched⟩ := ih
    have hnow : Halted call front _ := ⟨hclient ▸ h.calling, h.kind, hclient ▸ h.stuck, h.front_ne⟩
    obtain ⟨hclient', hfetched'⟩ := hnow.step hstep
    exact ⟨hclient'.trans hclient, hfetched'.trans hfetched⟩

/-- A read that ends with the fifth byte of a response with records is the last one: whatever the
server and the connection do from then on, the call does not return. -/
theorem never_returns (hreading : st.client.calling = .reading call)
    (hkind : call.operation.cls.requestKind = none)
    (hfront : st.client.buf.bytes.take st.client.buf.position ++ bytes = front)
    (hfive : front.length = 5) (hne : front ≠ END)
    (hread : st.step P services bufferSize (.read bytes) = some next)
    (hrun : Runs (step P services bufferSize) (fun _ _ => True) next last) :
    last.client.calling = .reading call ∧ last.client.returned = st.client.returned ∧
      last.fetched = next.fetched := by
  obtain ⟨client, hclient, rfl⟩ :=
    Option.map_eq_some_iff.mp (Option.ite_none_right_eq_some.mp hread).2
  simp only [SimpleClient.read, hreading] at hclient
  obtain ⟨buf, hput, hclient⟩ := Option.map_eq_some_iff.mp hclient
  obtain ⟨-, hput⟩ := ByteBuffer.take_put hput
  rw [hfront] at hput
  have hposition : buf.position = 5 := by
    have hlength := congrArg List.length hput
    have hle := buf.position_le.trans buf.limit_le
    rw [List.length_take, Nat.min_eq_left hle] at hlength
    exact hlength.trans hfive
  rw [hposition] at hput
  obtain ⟨cas, hresponse⟩ := getResponse_of_retrieval (P := P) (U := services.utils) hkind
  obtain ⟨after, hafter, hstuck⟩ := getRetrievalResponse_stuck (P := P) (U := services.utils) cas
    hposition (hput ▸ hne)
  have hwaits : call.getResponse P services.utils buf = .ok (none, after) := by
    simp only [hresponse, hafter]
    rfl
  simp only [hwaits] at hclient
  subst hclient
  obtain ⟨hlast, hfetched⟩ := Halted.run ⟨rfl, hkind, hput ▸ hstuck, hne⟩ hrun
  rw [hlast]
  exact ⟨rfl, rfl, hfetched⟩

theorem never_returns_counting :
    ∃ st next : Conversation ListStore,
      Runs (step .iso88591 listServices 64) StopsWell (start 64 counting {}) st ∧
      st.step .iso88591 listServices 64 (.read (ascii "VALUE")) = some next ∧
      ∀ last, Runs (step .iso88591 listServices 64) (fun _ _ => True) next last →
        last.client.calling = .reading (.get [ascii "k"]) ∧
          last.client.returned = st.client.returned ∧ last.fetched = next.fetched := by
  obtain ⟨st, hrun, htest⟩ := exists_counting []
    (fun st => st.client.calling = .reading (.get [ascii "k"]) ∧ st.client.buf.position = 0 ∧
      (st.step .iso88591 listServices 64 (.read (ascii "VALUE"))).isSome) (by decide +kernel)
  obtain ⟨hreading, hposition, hread⟩ := of_decide_eq_true htest
  obtain ⟨next, hread⟩ := Option.isSome_iff_exists.mp hread
  have hfront : st.client.buf.bytes.take st.client.buf.position ++ ascii "VALUE" =
      ascii "VALUE" := by rw [hposition, List.take_zero, List.nil_append]
  exact ⟨st, next, hrun, hread, fun last hlast =>
    never_returns hreading rfl hfront (by decide) (by decide) hread hlast⟩

/-- What the server has written for a call that waits is its response. -/
theorem Represents.exists_rest {x : Exchange ClientCall UInt8 UInt8 CallResult}
    {done : List ClientCall} {output : List UInt8} {store : σ}
    (h : Represents P services capacity bufferSize s st x)
    (hsound : Exchange.Sound (caller P services) (protocol services bufferSize) calls s x done
      output store) (hU : Client.ReadsDecimal services.utils)
    (hprint : ∀ value, 0 ≤ value → services.utils.longToStrDirect value = Decimal.toString value)
    (hbuffer : 0 < bufferSize) (hcallable : Callable P services capacity bufferSize calls s)
    (hcall : x.call = some call) (hsending : x.sending = []) (hnoreply : call.noreply = false)
    (hphase : st.thread.phase = .waiting ∨ st.thread.phase = .reading)
    (hreceived : st.thread.received = st.sent) :
    ∃ rest result, st.fetched ++ rest = st.thread.written ∧
      Reads P services.utils call (x.response ++ rest) result := by
  have hvalid := hcallable.valid hU hprint
  have hall : st.thread.received = x.sent := hreceived.trans h.sent.symm
  obtain ⟨left, hserves, hleft⟩ := exists_serves hsound hcallable hU hprint hbuffer h.thread
    (hall ▸ List.prefix_rfl)
  rw [hleft hphase hsending hall, ← h.received, ← h.output] at hserves
  obtain ⟨out, next, hserve, -, houtput⟩ :=
    hsound.output_of_quiet hvalid hcall hsending (h.received.trans hall) hserves
  obtain ⟨_, hserve', ⟨rest, rfl⟩, hunderstood⟩ :=
    exists_response hsound hcallable hU hprint hcall
  obtain ⟨rfl, -⟩ := Prod.mk.inj (Option.some.inj (hserve.symm.trans hserve'))
  refine ⟨rest, _, ?_, hunderstood.reads hnoreply⟩
  rw [← h.fetched, ← h.output, hsound.fetched, houtput, List.append_assoc]

/-- A read of all the rest of a response, for which there is room in the buffer. -/
theorem exists_returned {stale rest : List UInt8} {result : CallResult}
    (hreading : st.client.calling = .reading call) (hbuf : st.client.buf = .received front stale)
    (hroom : rest.length ≤ stale.length) (hrest : st.fetched ++ rest = st.thread.written)
    (hreads : Reads P services.utils call (front ++ rest) result) :
    ∃ last, Runs (step P services bufferSize) StopsWell st last ∧
      last.client.returned = st.client.returned ++ [result] := by
  obtain ⟨next, hput⟩ : ∃ next, (ByteBuffer.received front stale).put rest = some next := by
    refine ⟨_, dif_pos ?_⟩
    simp only [ByteBuffer.received, List.length_append]
    omega
  obtain ⟨after, hanswers⟩ := hreads.answers (stale.drop rest.length)
  have hread : st.step P services bufferSize (.read rest) =
      some { st with
        client := { st.client with
          buf := after
          calling := .idle
          returned := st.client.returned ++ [result] }
        fetched := st.fetched ++ rest } := by
    simp only [Conversation.step, hrest, List.prefix_rfl, if_true, SimpleClient.read, hreading,
      hbuf, hput, ByteBuffer.put_received hput, Option.map_some, hanswers]
  have hstop : st.StopsWell (.read rest) := by
    intro call' hcall'
    obtain rfl := Calling.reading.inj (hreading.symm.trans hcall')
    rw [hbuf]
    simpa only [ByteBuffer.received, List.take_left'] using hreads.whole
  exact ⟨_, .single ⟨.read rest, hstop, hread⟩, rfl⟩

/-- While a call waits for a response that the server has written, the rest of it can be read, and
then the call returns, unless it has read the first five bytes on their own. -/
theorem returns_iff (hU : Client.ReadsDecimal services.utils)
    (hprint : ∀ value, 0 ≤ value → services.utils.longToStrDirect value = Decimal.toString value)
    (hbuffer : 0 < bufferSize) (hcallable : Callable P services capacity bufferSize calls s)
    (hrun : Runs (step P services bufferSize) StopsWell (start capacity calls s) st)
    (hreading : st.client.calling = .reading call)
    (hphase : st.thread.phase = .waiting ∨ st.thread.phase = .reading)
    (hreceived : st.thread.received = st.sent)
    (hroom : st.client.buf.position + (st.thread.written.length - st.fetched.length) ≤ capacity) :
    (∃ last, Runs (step P services bufferSize) StopsWell st last ∧
        st.client.returned.length < last.client.returned.length) ↔
      ¬ (call.operation.cls.requestKind = none ∧ st.client.buf.position = 5 ∧
        st.client.buf.limit = 5) := by
  obtain ⟨x, hexchange, h⟩ := exists_exchange hU hprint hbuffer hcallable hrun
  obtain ⟨done, output, store, hsound⟩ :=
    Exchange.sound_of_run (hcallable.valid hU hprint) hexchange
  have hclient := h.client
  simp only [SimpleClient.Stands, hreading] at hclient
  obtain ⟨hcall, hsending, hnoreply, hholds, buf, hwaiting⟩ := hclient
  constructor
  · rintro ⟨last, hrun, hmore⟩ ⟨hkind, hposition, hlimit⟩
    have hfront := hholds.take_position
    rw [hposition] at hfront
    have hlength : x.response.length = 5 := by
      have hle := st.client.buf.limit_le
      rw [← hfront, List.length_take]
      omega
    have hne : x.response ≠ END := by
      intro hend
      obtain ⟨cas, hresponse⟩ := getResponse_of_retrieval (P := P) (U := services.utils) hkind
      have hempty := getRetrievalResponse_five (P := P) (U := services.utils) cas []
        (rfl : END.length = 5)
      simp only [hend, hresponse, hempty, if_true] at hwaiting
      cases hwaiting
    obtain ⟨hsame, -⟩ :=
      Halted.run ⟨hreading, hkind, ⟨hlength, hposition, hlimit, hfront⟩, hne⟩ hrun
    rw [hsame] at hmore
    exact absurd hmore (Nat.lt_irrefl _)
  · intro hnot
    obtain ⟨rest, result, hrest, hreads⟩ := h.exists_rest hsound hU hprint hbuffer hcallable hcall
      hsending hnoreply hphase hreceived
    obtain ⟨stale, hbuf⟩ : ∃ stale, st.client.buf = .received x.response stale := by
      refine hholds.resolve_right fun hstuck => hnot ?_
      exact ⟨hstuck.1, hstuck.2.position, hstuck.2.limit⟩
    have hcapacity := h.capacity
    rw [← hrest, List.length_append, Nat.add_sub_cancel_left] at hroom
    simp only [hbuf, ByteBuffer.received, List.length_append] at hroom hcapacity
    obtain ⟨last, hlast, hreturned⟩ := exists_returned hreading hbuf (by omega) hrest hreads
    exact ⟨last, hlast, by simp [hreturned]⟩

theorem returns_iff_counting :
    ∃ st : Conversation ListStore,
      Runs (step .iso88591 listServices 64) StopsWell (start 64 counting {}) st ∧
      st.client.calling = .reading (.get [ascii "k"]) ∧ st.client.buf.position = 7 ∧
      ∃ last, Runs (step .iso88591 listServices 64) StopsWell st last ∧
        st.client.returned.length < last.client.returned.length := by
  obtain ⟨st, hrun, htest⟩ := exists_counting [.read (ascii "VALUE k")]
    (fun st => st.client.calling = .reading (.get [ascii "k"]) ∧ st.thread.phase = .waiting ∧
      st.thread.received = st.sent ∧ st.client.buf.position = 7 ∧
      st.client.buf.position + (st.thread.written.length - st.fetched.length) ≤ 64)
    (by decide +kernel)
  obtain ⟨hreading, hphase, hreceived, hseven, hroom⟩ := of_decide_eq_true htest
  refine ⟨st, hrun, hreading, hseven, ?_⟩
  refine (returns_iff Client.readsDecimal_decimalUtils (fun _ _ => rfl) (by decide)
    callable_counting hrun hreading (.inl hphase) hreceived hroom).mpr ?_
  rintro ⟨-, hfive, -⟩
  omega

end Memcarrot.Conversation
