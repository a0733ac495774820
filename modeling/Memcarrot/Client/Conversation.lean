import Memcarrot.Client.Callable
import Memcarrot.Server.Finishing
import Memcarrot.Server.Pipelining
import Memcarrot.Transition.Runs

open Incremental Relation Transition

namespace Memcarrot

variable {σ : Type}

/-- A client and the worker thread that serves its connection, with all that the client has sent
and read. -/
structure Conversation (σ : Type) where
  client : SimpleClient
  thread : WorkThread σ
  sent : List UInt8 := []
  fetched : List UInt8 := []

namespace Conversation

/-- A client with calls to make, and a thread with a store. -/
def start (capacity : Nat) (calls : List ClientCall) (s : σ) : Conversation σ where
  client := .start capacity calls
  thread := { store := s }

/-- The client begins a call, writes of its request, comes to the end of it, or reads of the
response, or something happens to the thread. -/
inductive Event where
  | begin
  | write (count : Nat)
  | written
  | read (bytes : List UInt8)
  | thread (e : WorkThread.Event)

/-- The state after an event, if it is possible: nothing is read that was not written before. -/
def step (P : Platform) (services : Services σ) (bufferSize : Nat) (st : Conversation σ) :
    Event → Option (Conversation σ)
  | .begin => st.client.begin.map fun client => { st with client }
  | .write count =>
    (st.client.write count).map fun (bytes, client) => { st with client, sent := st.sent ++ bytes }
  | .written => st.client.written.map fun client => { st with client }
  | .read bytes =>
    if st.fetched ++ bytes <+: st.thread.written then
      (st.client.read P services.utils bytes).map fun client =>
        { st with client, fetched := st.fetched ++ bytes }
    else none
  | .thread e =>
    match st.thread.step services bufferSize e with
    | some thread => if thread.received <+: st.sent then some { st with thread } else none
    | none => none

/-- The reads of the client stop where the method for the response can tell that it is not all
there. -/
def StopsWell (st : Conversation σ) : Event → Prop
  | .read bytes =>
    ∀ call, st.client.calling = .reading call →
      call.MayStop (st.client.buf.bytes.take st.client.buf.position ++ bytes)
  | _ => True

end Conversation

namespace WorkThread

open CommandProcessor Wire

variable {services : Services σ} {bufferSize : Nat} {replyPtr : Int}
  {requests : List (Request services.utils)} {s : σ} {result : List UInt8 × σ}
  {st st' : WorkThread σ}

theorem written_of_step {e : Event} (hstep : st.step services bufferSize e = some st') :
    st.written <+: st'.written := by
  cases e with
  | advance =>
    simp only [step, Option.some.injEq] at hstep
    rw [← hstep, written_advance]
    exact List.prefix_append _ _
  | activate | read | readNothing | hangUp =>
    simp only [step, Option.ite_none_right_eq_some, Option.some.injEq] at hstep
    obtain ⟨-, rfl⟩ := hstep
    exact List.prefix_rfl

/-- Also after a timeout, a thread stands for a session, which is over then. -/
theorem exists_session_or_closed (hserved : Served services bufferSize replyPtr requests s result)
    (hrun : Runs services bufferSize (fun _ => True) { store := s } st)
    (hreceived : st.received <+: (protocol services bufferSize replyPtr).stream requests) :
    ∃ t, ReflTransGen (Session.Step (protocol services bufferSize replyPtr)) { store := s } t ∧
      (Represents requests st t ∨
        st.phase = .closed ∧ t.served <+: requests ∧ st.received = t.received ∧
          st.written = t.output) := by
  induction hrun with
  | refl => exact ⟨_, .refl, .inl (.start s)⟩
  | tail _ hstep ih =>
    obtain ⟨e, -, hstep⟩ := hstep
    have hbefore := (received_of_step hstep).trans hreceived
    obtain ⟨t, hsession, hrep | ⟨hclosed, hfacts⟩⟩ := ih hbefore
    · by_cases he : e.Delivers
      · obtain ⟨t', hfollows, hrep'⟩ :=
          hrep.step hserved (Session.sound_of_run hsession) hbefore he hstep
        exact ⟨t', hsession.trans hfollows.to_reflTransGen, .inl hrep'⟩
      · cases e with
        | hangUp =>
          simp only [step, Option.ite_none_right_eq_some, Option.some.injEq] at hstep
          obtain ⟨-, rfl⟩ := hstep
          exact ⟨t, hsession, .inr ⟨rfl, hrep.served, hrep.received, hrep.written⟩⟩
        | _ => exact absurd trivial he
    · cases e with
      | advance =>
        simp only [step, advance, hclosed, Option.some.injEq] at hstep
        subst hstep
        exact ⟨t, hsession, .inr ⟨hclosed, hfacts⟩⟩
      | activate | read | readNothing | hangUp =>
        simp [step, MayRead, hclosed] at hstep

/-- Outside of the loop over the requests nothing is left of requests that were received. -/
theorem Represents.input_eq_nil {t : Session (Request services.utils) UInt8 UInt8 σ}
    (h : Represents requests st t)
    (hsound : Session.Sound (protocol services bufferSize replyPtr) s t)
    (hphase : st.phase = .waiting ∨ st.phase = .reading) {front : List (Request services.utils)}
    (hfront : front <+: requests)
    (hall : st.received = (protocol services bufferSize replyPtr).stream front) : t.input = [] := by
  rcases hphase with hwaiting | hreading
  · rw [← h.unconsumed, WorkThread.unconsumed, hwaiting]
  rcases (h.reading hreading).2.2 with hempty | ⟨r, todo, hrequests, hcut, hne⟩
  · exact hempty
  rw [h.received, hsound.received] at hall
  have hserved : t.served <+: front :=
    Protocol.prefix_of_stream _ (fun r _ => List.ne_nil_of_length_pos r.length_bytes_pos) h.served
      hfront (hall ▸ List.prefix_append _ _)
  obtain ⟨more, rfl⟩ := hserved
  rw [Protocol.stream_append] at hall
  have hinput := List.append_cancel_left hall
  rw [hrequests, List.prefix_append_right_inj] at hfront
  cases more with
  | nil => exact hinput
  | cons next more =>
    obtain ⟨rfl, -⟩ := List.cons_prefix_cons.mp hfront
    rw [hinput, Protocol.stream_cons] at hcut hne
    have hlength := hcut.length_le
    rw [List.length_append] at hlength
    simp only [protocol] at hcut hne hlength
    exact absurd (hcut.eq_of_length (by rw [List.length_append]; omega)) hne

/-- A thread has served the first of the requests, each once and in order, and outside of the loop
over them it is left with the beginning of the next one. -/
theorem serves_of_run (hserved : Served services bufferSize replyPtr requests s result)
    (hrun : Runs services bufferSize (fun _ => True) { store := s } st)
    (hreceived : st.received <+: (protocol services bufferSize replyPtr).stream requests) :
    ∃ left, (protocol services bufferSize replyPtr).Serves requests s st.received left
        st.written ∧
      (st.phase = .waiting ∨ st.phase = .reading → ∀ front, front <+: requests →
        st.received = (protocol services bufferSize replyPtr).stream front → left = []) := by
  obtain ⟨t, hsession, hcases⟩ := exists_session_or_closed hserved hrun hreceived
  have hsound := Session.sound_of_run hsession
  rcases hcases with hrep | ⟨hclosed, hfront', hsame, hwritten⟩
  · refine ⟨t.input, ⟨t.served, t.store, hrep.served, ?_, ?_⟩, fun hphase front hfront hall => ?_⟩
    · rw [hrep.received, hsound.received]
    · rw [hrep.written, hsound.served]
    · exact hrep.input_eq_nil hsound hphase hfront hall
  · refine ⟨t.input, ⟨t.served, t.store, hfront', ?_, ?_⟩, fun hphase => ?_⟩
    · rw [hsame, hsound.received]
    · rw [hwritten, hsound.served]
    · rw [hclosed] at hphase
      rcases hphase with h | h <;> cases h

end WorkThread

namespace ClientCall

/-- The requests that the client writes for calls are served. -/
theorem Callable.exists_served {P : Platform} {services : Services σ} {capacity bufferSize : Nat}
    {calls : List ClientCall} {s : σ} (h : Callable P services capacity bufferSize calls s)
    (hU : Client.ReadsDecimal services.utils)
    (hprint : ∀ value, 0 ≤ value → services.utils.longToStrDirect value = Decimal.toString value)
    (hbuffer : 0 < bufferSize) :
    ∃ requests result, List.Forall₂ ((CommandProcessor.protocol services bufferSize 1).Same
        (protocol services bufferSize)) requests calls ∧
      WorkThread.Served services bufferSize 1 requests s result := by
  obtain ⟨requests, hsame, hrequests⟩ := h.exists_requests hU
  obtain ⟨result, hreplies⟩ := (h.valid hU hprint).exists_serveAll
  exact ⟨requests, result, hsame, by decide, hbuffer, fun r hr => (hrequests r hr).1,
    fun r hr => (hrequests r hr).2, (Protocol.serveAll_eq_of_same hsame s).trans hreplies⟩

variable {call : ClientCall} {front bytes : List UInt8} {buf next : ByteBuffer}

theorem getResponse_nil (P : Platform) (U : CacheUtils) (call : ClientCall) :
    ∃ next, call.getResponse P U (.received [] []) = .ok (none, next) := by
  cases call <;> exact ⟨_, rfl⟩

theorem Holds.take_position (h : call.Holds front buf) : buf.bytes.take buf.position = front := by
  rcases h with ⟨stale, rfl⟩ | ⟨-, hstuck⟩
  · exact List.take_left' rfl
  · rw [hstuck.position]
    exact hstuck.bytes

/-- What is read is put behind what was read before. -/
theorem Holds.put (h : call.Holds front buf) (hput : buf.put bytes = some next) :
    (∃ stale, next = .received (front ++ bytes) stale) ∨ bytes = [] ∧ next = buf := by
  rcases h with ⟨stale, rfl⟩ | ⟨-, hstuck⟩
  · exact .inl ⟨_, ByteBuffer.put_received hput⟩
  · exact .inr (hstuck.put hput)

end ClientCall

namespace SimpleClient

/-- What a client is about to do: its call, what it has still to send of the request, and what it
has read of the response. -/
def Stands (P : Platform) (U : CacheUtils) (client : SimpleClient) (call : Option ClientCall)
    (sending response : List UInt8) : Prop :=
  match client.calling with
  | .idle => call = none
  | .writing c => call = some c ∧ sending = client.buf.remaining ∧ response = []
  | .reading c => call = some c ∧ sending = [] ∧ c.noreply = false ∧ c.Holds response client.buf ∧
      ∃ buf, c.getResponse P U (.received response []) = .ok (none, buf)
  | .failed _ => False

theorem Stands.call_eq {P : Platform} {U : CacheUtils} {client : SimpleClient}
    {call : Option ClientCall} {sending response : List UInt8}
    (h : client.Stands P U call sending response) : call = client.calling.call := by
  unfold Stands at h
  cases hcalling : client.calling with
  | idle =>
    simp only [hcalling] at h
    exact h
  | writing | reading =>
    simp only [hcalling] at h
    exact h.1
  | failed => simp only [hcalling] at h

end SimpleClient

namespace Conversation

open ClientCall SimpleClient

variable {P : Platform} {services : Services σ} {capacity bufferSize : Nat}
  {calls : List ClientCall} {s : σ} {st st' : Conversation σ}
  {x x' : Exchange ClientCall UInt8 UInt8 CallResult}

/-- A conversation is an exchange of requests and responses. -/
structure Represents (P : Platform) (services : Services σ) (capacity bufferSize : Nat) (s : σ)
    (st : Conversation σ) (x : Exchange ClientCall UInt8 UInt8 CallResult) : Prop where
  todo : x.todo = st.client.todo
  returned : x.returned = st.client.returned
  client : st.client.Stands P services.utils x.call x.sending x.response
  sent : x.sent = st.sent
  fetched : x.fetched = st.fetched
  received : x.received = st.thread.received
  output : x.output = st.thread.written
  thread : WorkThread.Runs services bufferSize (fun _ => True) { store := s } st.thread
  capacity : st.client.buf.bytes.length = capacity

section Steps

variable {done : List ClientCall} {output : List UInt8} {store : σ}
  (hsound : Exchange.Sound (caller P services) (protocol services bufferSize) calls s x done output
    store)
  (hcallable : Callable P services capacity bufferSize calls s)
  (hU : Client.ReadsDecimal services.utils)
  (hprint : ∀ value, 0 ≤ value → services.utils.longToStrDirect value = Decimal.toString value)
include hsound

include hcallable hprint in
theorem Represents.begin (h : Represents P services capacity bufferSize s st x)
    {client : SimpleClient} (hbegin : st.client.begin = some client) :
    ∃ x', ReflTransGen (Exchange.Step (caller P services) (protocol services bufferSize) calls s)
        x x' ∧
      Represents P services capacity bufferSize s { st with client } x' := by
  have hclient := h.client
  unfold SimpleClient.Stands at hclient
  unfold SimpleClient.begin at hbegin
  split at hbegin
  · rename_i call todo hidle htodo
    simp only [hidle] at hclient
    have horder := hsound.order
    rw [hclient, h.todo, htodo, Option.toList_none, List.nil_append] at horder
    obtain ⟨hfits, -⟩ := (horder ▸ hcallable).next hprint hsound.served
    rw [← h.capacity] at hfits
    simp only [ByteBuffer.put_clear hfits, Option.some.injEq] at hbegin
    subst hbegin
    refine ⟨_, .single (.call x hclient (h.todo.trans htodo)), ⟨rfl, h.returned, ?_, h.sent,
      h.fetched, h.received, h.output, h.thread, ?_⟩⟩
    · refine ⟨rfl, ?_, (hsound.idle hclient).2⟩
      simp only [ByteBuffer.remaining_flip_received, protocol]
    · have hlength := ByteBuffer.length_put (ByteBuffer.put_clear hfits)
      exact hlength.trans h.capacity
  · cases hbegin

omit hsound in
theorem Represents.write (h : Represents P services capacity bufferSize s st x) {count : Nat}
    {bytes : List UInt8} {client : SimpleClient}
    (hwrite : st.client.write count = some (bytes, client)) :
    ∃ x', ReflTransGen (Exchange.Step (caller P services) (protocol services bufferSize) calls s)
        x x' ∧
      Represents P services capacity bufferSize s { st with client, sent := st.sent ++ bytes }
        x' := by
  have hclient := h.client
  unfold SimpleClient.Stands at hclient
  unfold SimpleClient.write at hwrite
  split at hwrite
  · rename_i call hwriting
    simp only [hwriting] at hclient
    obtain ⟨hcall, hsending, hresponse⟩ := hclient
    have hsplit := List.take_append_drop count st.client.buf.remaining
    obtain ⟨next, hget, hrest⟩ := ByteBuffer.getBytes_eq hsplit.symm
    have hbytes := bytes_getBytes (congrArg onBuffer hget)
    rw [List.length_take] at hget
    simp only [hget, Option.ite_none_left_eq_some, Option.some.injEq, Prod.mk.injEq] at hwrite
    obtain ⟨-, rfl, rfl⟩ := hwrite
    refine ⟨_, .single (.send x hcall (hsending.trans hsplit.symm)), ⟨h.todo, h.returned, ?_, ?_,
      h.fetched, h.received, h.output, h.thread, ?_⟩⟩
    · simp only [SimpleClient.Stands, hwriting]
      exact ⟨hcall, hrest.symm, hresponse⟩
    · simp only [h.sent]
    · exact (congrArg List.length hbytes).trans h.capacity
  · cases hwrite

omit hsound in
theorem Represents.written (h : Represents P services capacity bufferSize s st x)
    {client : SimpleClient} (hwritten : st.client.written = some client) :
    ∃ x', ReflTransGen (Exchange.Step (caller P services) (protocol services bufferSize) calls s)
        x x' ∧
      Represents P services capacity bufferSize s { st with client } x' := by
  have hclient := h.client
  unfold SimpleClient.Stands at hclient
  unfold SimpleClient.written at hwritten
  split at hwritten
  · rename_i call hwriting
    simp only [hwriting] at hclient
    obtain ⟨hcall, hsending, hresponse⟩ := hclient
    split at hwritten
    · rename_i hempty
      rw [hempty] at hsending
      cases hnoreply : call.noreply with
      | true =>
        simp only [hnoreply, if_true, Option.some.injEq] at hwritten
        subst hwritten
        have hdecode : (caller P services).decode call x.response = some .null := by
          simp [caller, hnoreply]
        refine ⟨_, .single (.done x hcall hsending hdecode), ⟨h.todo, ?_, rfl, h.sent, h.fetched,
          h.received, h.output, h.thread, h.capacity⟩⟩
        simp only [h.returned]
      | false =>
        simp only [hnoreply, Bool.false_eq_true, if_false, Option.some.injEq] at hwritten
        subst hwritten
        refine ⟨x, .refl, ⟨h.todo, h.returned, ?_, h.sent, h.fetched, h.received, h.output,
          h.thread, h.capacity⟩⟩
        rw [hresponse]
        exact ⟨hcall, hsending, hnoreply, .inl ⟨_, rfl⟩, call.getResponse_nil P services.utils⟩
    · cases hwritten
  · cases hwritten

include hcallable hU hprint in
/-- What was read for a call is the front of its response, which the client understands. -/
theorem exists_response {call : ClientCall} (hcall : x.call = some call) :
    ∃ out, (protocol services bufferSize).serve call store =
        some (out, (call.perform services.support store).2) ∧ x.response <+: out ∧
      Understood P services.utils call out (call.perform services.support store).1 := by
  obtain ⟨out, last, hserve, -, -, hfront⟩ :=
    hsound.front_of_response (hcallable.valid hU hprint) hcall
  have horder := hsound.order
  simp only [hcall, Option.toList_some, List.singleton_append] at horder
  obtain ⟨-, sent, hserve', hunderstood⟩ := (horder ▸ hcallable).next hprint hsound.served
  obtain ⟨rfl, rfl⟩ := Prod.mk.inj (Option.some.inj (hserve.symm.trans hserve'))
  exact ⟨out, hserve, hfront, hunderstood⟩

include hcallable hU hprint in
theorem Represents.read (h : Represents P services capacity bufferSize s st x)
    {bytes : List UInt8} (hpiece : st.fetched ++ bytes <+: st.thread.written)
    (hstop : st.StopsWell (.read bytes)) {client : SimpleClient}
    (hread : st.client.read P services.utils bytes = some client) :
    ∃ x', ReflTransGen (Exchange.Step (caller P services) (protocol services bufferSize) calls s)
        x x' ∧
      Represents P services capacity bufferSize s
        { st with client, fetched := st.fetched ++ bytes } x' := by
  have hclient := h.client
  unfold SimpleClient.Stands at hclient
  unfold SimpleClient.read at hread
  split at hread
  · rename_i call hreading
    simp only [hreading] at hclient
    obtain ⟨hcall, hsending, hnoreply, hholds, hwaiting⟩ := hclient
    rw [Option.map_eq_some_iff] at hread
    obtain ⟨next, hput, hread⟩ := hread
    have hmayStop := hstop call hreading
    rw [hholds.take_position] at hmayStop
    have hstep : Exchange.Step (caller P services) (protocol services bufferSize) calls s x
        { x with response := x.response ++ bytes, fetched := x.fetched ++ bytes } :=
      .read x hcall hsending (h.fetched ▸ h.output ▸ hpiece) hmayStop
    obtain ⟨done, output, store, hsound⟩ := hsound.step (hcallable.valid hU hprint) hstep
    obtain ⟨out, -, hfront, hunderstood⟩ := exists_response hsound hcallable hU hprint hcall
    have hreads := hunderstood.reads hnoreply
    have hcapacity : next.bytes.length = capacity := (ByteBuffer.length_put hput).trans h.capacity
    have hnext := hholds.put hput
    by_cases hwhole : x.response ++ bytes = out
    · obtain ⟨stale, rfl⟩ : ∃ stale, next = .received (x.response ++ bytes) stale := by
        refine hnext.resolve_right fun hstuck => ?_
        have hnil := hstuck.1
        obtain ⟨buf, hwaiting⟩ := hwaiting
        rw [hnil, List.append_nil] at hwhole
        obtain ⟨after, hanswers⟩ := hreads.answers []
        rw [← hwhole, hwaiting] at hanswers
        cases hanswers
      obtain ⟨after, hanswers⟩ := hreads.answers stale
      obtain ⟨last, hdecodes⟩ := hreads.answers []
      rw [hwhole] at hread
      simp only [hanswers] at hread
      subst hread
      have hdecode : (caller P services).decode call (x.response ++ bytes) =
          some (call.perform services.support store).1 := by
        simp [caller, hnoreply, hwhole, hdecodes]
      refine ⟨_, (ReflTransGen.single hstep).tail (.done _ hcall hsending hdecode),
        ⟨h.todo, ?_, rfl, h.sent, ?_, h.received, h.output, h.thread, ?_⟩⟩
      · simp only [h.returned]
      · simp only [h.fetched]
      · have hbytes := bytes_getResponse hanswers
        rw [hbytes, ← hwhole]
        exact hcapacity
    · have hholds' : call.Holds (x.response ++ bytes) next := by
        rcases hnext with hreceived | ⟨hnil, rfl⟩
        · exact .inl hreceived
        · rwa [hnil, List.append_nil]
      obtain ⟨after, hwaits, hafter⟩ := hreads.waits hfront hwhole hmayStop hholds'
      obtain ⟨last, hagain, -⟩ := hreads.waits hfront hwhole hmayStop (.inl ⟨[], rfl⟩)
      simp only [hwaits] at hread
      subst hread
      refine ⟨_, .single hstep,
        ⟨h.todo, h.returned, ?_, h.sent, ?_, h.received, h.output, h.thread, ?_⟩⟩
      · simp only [SimpleClient.Stands, hreading]
        exact ⟨hcall, hsending, hnoreply, hafter, last, hagain⟩
      · simp only [h.fetched]
      · have hbytes := bytes_getResponse hwaits
        rw [hbytes]
        exact hcapacity
  · cases hread

include hcallable hU hprint in
/-- What a thread that has received no more than was sent has served. -/
theorem exists_serves (hbuffer : 0 < bufferSize) {thread : WorkThread σ}
    (hruns : WorkThread.Runs services bufferSize (fun _ => True) { store := s } thread)
    (hreceived : thread.received <+: x.sent) :
    ∃ left, (protocol services bufferSize).Serves calls s thread.received left thread.written ∧
      (thread.phase = .waiting ∨ thread.phase = .reading → x.sending = [] →
        thread.received = x.sent → left = []) := by
  obtain ⟨requests, result, hsame, hserved⟩ := hcallable.exists_served hU hprint hbuffer
  have hfront : (protocol services bufferSize).stream (done ++ x.call.toList) =
      (CommandProcessor.protocol services bufferSize 1).stream
        (requests.take (done ++ x.call.toList).length) := by
    rw [Protocol.stream_eq_of_same (List.forall₂_take _ hsame), hsound.order, ← List.append_assoc,
      List.take_left' rfl]
  have hfront' : thread.received <+:
      (CommandProcessor.protocol services bufferSize 1).stream requests := by
    rw [Protocol.stream_eq_of_same hsame]
    exact hreceived.trans hsound.sent_le
  obtain ⟨left, hserves, hleft⟩ := WorkThread.serves_of_run hserved hruns hfront'
  refine ⟨left, hserves.of_same hsame, fun hphase hsending hall => ?_⟩
  refine hleft hphase (requests.take (done ++ x.call.toList).length) (List.take_prefix _ _) ?_
  rw [hall, ← hfront, ← hsound.sent, hsending, List.append_nil]

include hcallable hU hprint in
/-- The thread goes on. -/
theorem Represents.serve (h : Represents P services capacity bufferSize s st x)
    (hbuffer : 0 < bufferSize) {thread : WorkThread σ}
    (hruns : WorkThread.Runs services bufferSize (fun _ => True) { store := s } thread)
    (hwritten : st.thread.written <+: thread.written) (hreceived : thread.received <+: st.sent) :
    ∃ x', ReflTransGen (Exchange.Step (caller P services) (protocol services bufferSize) calls s)
        x x' ∧
      Represents P services capacity bufferSize s { st with thread } x' := by
  rw [← h.sent] at hreceived
  obtain ⟨left, hserves, -⟩ := exists_serves hsound hcallable hU hprint hbuffer hruns hreceived
  refine ⟨_, .single (.serve x hserves hreceived (h.output.symm ▸ hwritten)),
    ⟨h.todo, h.returned, h.client, h.sent, h.fetched, rfl, rfl, hruns, h.capacity⟩⟩

include hcallable hU hprint in
/-- The calls that are over have returned the right results, and nothing waits once nothing is on
the way any more. -/
theorem Represents.returns (h : Represents P services capacity bufferSize s st x)
    (hbuffer : 0 < bufferSize) :
    (∃ made, calls = made ++ (st.client.calling.call.toList ++ st.client.todo) ∧
        st.client.returned = performAll services.support made s) ∧
      (∀ failure, st.client.calling ≠ .failed failure) ∧
      (st.thread.phase = .waiting ∨ st.thread.phase = .reading → st.thread.received = st.sent →
        st.fetched = st.thread.written → ∀ call, st.client.calling ≠ .reading call) := by
  have hclient := h.client
  refine ⟨?_, fun failure hfailed => ?_, fun hphase hreceived hfetched call hreading => ?_⟩
  · have horder := hsound.order
    refine ⟨done, ?_, ?_⟩
    · rw [← hclient.call_eq, ← h.todo]
      exact horder
    · rw [← h.returned, hsound.returned]
      exact (horder ▸ hcallable).front.results_eq hprint
  · simp only [SimpleClient.Stands, hfailed] at hclient
  · simp only [SimpleClient.Stands, hreading] at hclient
    obtain ⟨hcall, hsending, hnoreply, -, buf, hwaiting⟩ := hclient
    have hall : st.thread.received = x.sent := hreceived.trans h.sent.symm
    obtain ⟨left, hserves, hleft⟩ := exists_serves hsound hcallable hU hprint hbuffer h.thread
      (hall ▸ List.prefix_rfl)
    rw [hleft hphase hsending hall, ← h.received, ← h.output] at hserves
    have hdecode := hsound.returns_of_quiet (hcallable.valid hU hprint) hcall hsending
      (h.received.trans hall) hserves (by rw [h.fetched, hfetched, h.output])
    simp [caller, hnoreply, hwaiting] at hdecode

end Steps

theorem exists_exchange (hU : Client.ReadsDecimal services.utils)
    (hprint : ∀ value, 0 ≤ value → services.utils.longToStrDirect value = Decimal.toString value)
    (hbuffer : 0 < bufferSize) (hcallable : Callable P services capacity bufferSize calls s)
    (hrun : Runs (step P services bufferSize) StopsWell (start capacity calls s) st) :
    ∃ x, ReflTransGen (Exchange.Step (caller P services) (protocol services bufferSize) calls s)
        { todo := calls } x ∧
      Represents P services capacity bufferSize s st x := by
  have hvalid := hcallable.valid hU hprint
  induction hrun with
  | refl =>
    refine ⟨_, .refl, ⟨rfl, rfl, rfl, rfl, rfl, rfl, rfl, .refl, ?_⟩⟩
    simp [start, SimpleClient.start, ByteBuffer.received]
  | @tail st next _ hstep ih =>
    obtain ⟨x, hexchange, h⟩ := ih
    obtain ⟨done, output, store, hsound⟩ := Exchange.sound_of_run hvalid hexchange
    obtain ⟨e, hstop, hstep⟩ := hstep
    have hnext : ∃ x', ReflTransGen (Exchange.Step (caller P services)
        (protocol services bufferSize) calls s) x x' ∧
          Represents P services capacity bufferSize s next x' := by
      cases e with
      | begin =>
        obtain ⟨client, hbegin, rfl⟩ := Option.map_eq_some_iff.mp hstep
        exact h.begin hsound hcallable hprint hbegin
      | write count =>
        obtain ⟨⟨bytes, client⟩, hwrite, rfl⟩ := Option.map_eq_some_iff.mp hstep
        exact h.write hwrite
      | written =>
        obtain ⟨client, hwritten, rfl⟩ := Option.map_eq_some_iff.mp hstep
        exact h.written hwritten
      | read bytes =>
        simp only [step, Option.ite_none_right_eq_some] at hstep
        obtain ⟨hpiece, hstep⟩ := hstep
        obtain ⟨client, hread, rfl⟩ := Option.map_eq_some_iff.mp hstep
        exact h.read hsound hcallable hU hprint hpiece hstop hread
      | thread e =>
        simp only [step] at hstep
        split at hstep
        · rename_i thread hthread
          rw [Option.ite_none_right_eq_some, Option.some.injEq] at hstep
          obtain ⟨hreceived, rfl⟩ := hstep
          exact h.serve hsound hcallable hU hprint hbuffer
            (h.thread.tail ⟨e, trivial, hthread⟩) (WorkThread.written_of_step hthread) hreceived
        · cases hstep
    obtain ⟨x', hsteps, h'⟩ := hnext
    exact ⟨x', hexchange.trans hsteps, h'⟩

/-- The calls of a client that are over have returned what they return if they are made on the store
itself, in order, and none of them fails, however requests and responses are cut in pieces on the
way and whatever the worker thread and the client do at the same time, as long as the reads of
one-line replies stop well. Once nothing is on the way any more, no call waits for its response. -/
theorem calls_return (hU : Client.ReadsDecimal services.utils)
    (hprint : ∀ value, 0 ≤ value → services.utils.longToStrDirect value = Decimal.toString value)
    (hbuffer : 0 < bufferSize) (hcallable : Callable P services capacity bufferSize calls s)
    (hrun : Runs (step P services bufferSize) StopsWell (start capacity calls s) st) :
    (∃ made, calls = made ++ (st.client.calling.call.toList ++ st.client.todo) ∧
        st.client.returned = performAll services.support made s) ∧
      (∀ failure, st.client.calling ≠ .failed failure) ∧
      (st.thread.phase = .waiting ∨ st.thread.phase = .reading → st.thread.received = st.sent →
        st.fetched = st.thread.written → ∀ call, st.client.calling ≠ .reading call) := by
  obtain ⟨x, hexchange, h⟩ := exists_exchange hU hprint hbuffer hcallable hrun
  obtain ⟨done, output, store, hsound⟩ :=
    Exchange.sound_of_run (hcallable.valid hU hprint) hexchange
  exact h.returns hsound hcallable hU hprint hbuffer

/-- A value that is stored, counted up and read back. -/
def counting : List ClientCall :=
  [.set (ascii "k") (ascii "5") 0 0 true, .incr (ascii "k") 2 false, .get [ascii "k"]]

theorem callable_counting : Callable .iso88591 listServices 64 64 counting {} := by
  have hkey : Wire.IsToken (ascii "k") := by decide
  refine .cons ⟨hkey, by decide, by decide⟩ (by decide +kernel) (by decide +kernel)
    (?set : _ = Outcome.response []) (by decide) (.inl rfl)
    (.cons hkey (by decide +kernel) (by decide +kernel)
      (?incr : _ = Outcome.response (ascii "7\r\n"))
      (by decide) (.inl (show (0 : Int) ≤ 7 ∧ (7 : Int) < 2 ^ 63 by decide))
      (.cons ⟨by decide, by decide⟩ (by decide +kernel) (by decide +kernel)
        (?get : _ = Outcome.response (ascii "VALUE k 0 1\r\n7\r\nEND\r\n")) (by decide)
        ⟨⟨fun one hfound => ?found, trivial⟩, .inr ⟨rfl, trivial⟩⟩ (.nil _)))
  case set | incr | get => decide +kernel
  let item : Item :=
    { key := ascii "k", flags := 0, value := ascii "7", cas := none
      key_bytes := by decide, flags_range := by decide, length_value := by decide }
  have hone : item.result = one := by
    apply Option.some.inj
    rw [← hfound]
    decide +kernel
  exact ⟨item, by decide +kernel, hone, by decide +kernel, by decide +kernel⟩

/-- No reply is read that has to be read at once. -/
def cutsAnywhere (st : Conversation σ) : Event → Bool
  | .read _ =>
    match st.client.calling with
    | .reading (.incr ..) | .reading (.get _) => true
    | _ => false
  | _ => true

theorem stopsWell_of_cutsAnywhere (st : Conversation σ) (e : Event)
    (h : st.cutsAnywhere e = true) : st.StopsWell e := by
  cases e with
  | read bytes =>
    intro call hcall kind hkind
    simp only [cutsAnywhere, hcall] at h
    cases call with
    | incr =>
      cases hkind
      trivial
    | get => cases hkind
    | _ => cases h
  | begin | write | written | thread => trivial

/-- Requests and the first response are cut, and the last request finds the thread waiting. -/
def countingEvents : List Event :=
  [.begin, .write 3, .write 100, .written, .begin, .thread (.activate (fun _ => 0) 1),
    .write 100, .written, .thread (.read (ascii "set k 0 0 1 nore")), .thread .advance,
    .thread (.read (ascii "ply\r\n5\r\nincr k 2\r\n")), .thread .advance, .thread .advance,
    .read (ascii "7"), .read (ascii "\r\n"), .begin, .write 100, .written, .thread .advance,
    .thread (.activate (fun _ => 0) 1), .thread (.read (ascii "get k\r\n")), .thread .advance,
    .thread .advance]

theorem exists_counting (events : List Event) (test : Conversation ListStore → Bool)
    (h : ((follow
      (fun st e => if cutsAnywhere st e then step .iso88591 listServices 64 st e else none)
      (start 64 counting {}) (countingEvents ++ events)).any test) = true) :
    ∃ st, Runs (step .iso88591 listServices 64) StopsWell (start 64 counting {}) st ∧
      test st = true := by
  obtain ⟨st, hst, htest⟩ := (Option.any_eq_true _ _).mp h
  exact ⟨st, runs_of_follow_where stopsWell_of_cutsAnywhere hst, htest⟩

theorem calls_return_counting :
    ∃ st : Conversation ListStore,
      Runs (step .iso88591 listServices 64) StopsWell (start 64 counting {}) st ∧
      st.client.returned =
        [.null, .answer (.number 7),
          .records [{ key := ascii "k", value := ascii "7", flags := 0, cas := none }]] ∧
      (∃ made, counting = made ++ (st.client.calling.call.toList ++ st.client.todo) ∧
        st.client.returned = performAll listServices.support made {}) ∧
      (∀ failure, st.client.calling ≠ .failed failure) ∧
      (st.thread.phase = .waiting ∨ st.thread.phase = .reading → st.thread.received = st.sent →
        st.fetched = st.thread.written → ∀ call, st.client.calling ≠ .reading call) := by
  obtain ⟨st, hrun, hreturned⟩ := exists_counting
    [.read (ascii "VALUE k"), .read (ascii " 0 1\r\n7\r\nEND\r\n")]
    (fun st => st.client.returned =
      [.null, .answer (.number 7),
        .records [{ key := ascii "k", value := ascii "7", flags := 0, cas := none }]])
    (by decide +kernel)
  exact ⟨st, hrun, of_decide_eq_true hreturned,
    calls_return Client.readsDecimal_decimalUtils (fun _ _ => rfl) (by decide) callable_counting
      hrun⟩

end Conversation

end Memcarrot
