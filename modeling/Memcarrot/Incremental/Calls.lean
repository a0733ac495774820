import Mathlib.Data.List.Forall2
import Memcarrot.Incremental.Session

open Relation

namespace Incremental

variable {F β ω σ α : Type}

/-- The caller of requests: what a call is to return in a state of the store, where a read of the
response may stop, and what a call returns for what it has read, unless it reads on. -/
structure Caller (F ω σ α : Type) where
  result : F → σ → α
  mayStop : F → List ω → Prop
  decode : F → List ω → Option α

namespace Caller

/-- A call reads on until it has all of a response, and then returns its result. -/
structure Understands (C : Caller F ω σ α) (f : F) (s : σ) (out : List ω) : Prop where
  start : C.mayStop f []
  cut : ∀ front, front <+: out → front ≠ out → C.mayStop f front → C.decode f front = none
  whole : C.decode f out = some (C.result f s)

variable (C : Caller F ω σ α) (P : Protocol F β ω σ)

/-- Calls that are served one after the other, and each of which understands its response. -/
inductive Valid : List F → σ → Prop where
  | nil (s : σ) : Valid [] s
  | cons {f : F} {fs : List F} {s next : σ} {out : List ω} (hitems : P.items f ≠ [])
      (hserve : P.serve f s = some (out, next)) (hout : C.Understands f s out)
      (hrest : Valid fs next) : Valid (f :: fs) s

/-- What calls are to return, one after the other. -/
def results : List F → σ → List α
  | [], _ => []
  | f :: fs, s =>
    C.result f s ::
      match P.serve f s with
      | some (_, next) => results fs next
      | none => []

variable {C P} {calls done todo served front : List F} {f : F} {s store : σ} {output : List ω}

theorem results_append (hdone : P.serveAll done s = some (output, store)) :
    C.results P (done ++ todo) s = C.results P done s ++ C.results P todo store := by
  induction done generalizing s output with
  | nil =>
    cases hdone
    rfl
  | cons f done ih =>
    simp only [Protocol.serveAll, Option.bind_eq_bind, Option.bind_eq_some_iff] at hdone
    obtain ⟨⟨out, next⟩, hserve, ⟨rest, last⟩, hall, hresult⟩ := hdone
    cases hresult
    simp only [List.cons_append, results, hserve, ih hall]

theorem Valid.items_ne_nil (h : C.Valid P calls s) : ∀ f ∈ calls, P.items f ≠ [] := by
  induction h with
  | nil => simp
  | cons hitems _ _ _ ih => simpa [hitems] using ih

theorem Valid.exists_serveAll (h : C.Valid P calls s) :
    ∃ result, P.serveAll calls s = some result := by
  induction h with
  | nil s => exact ⟨_, rfl⟩
  | cons _ hserve _ _ ih =>
    obtain ⟨result, hall⟩ := ih
    exact ⟨_, by simp only [Protocol.serveAll, hserve, hall, Option.bind_eq_bind,
      Option.bind_some]; rfl⟩

/-- The next call is served, and understands its response, in the state after those before it. -/
theorem Valid.next (h : C.Valid P (done ++ f :: todo) s)
    (hdone : P.serveAll done s = some (output, store)) :
    ∃ out next, P.serve f store = some (out, next) ∧ C.Understands f store out := by
  induction done generalizing s output with
  | nil =>
    cases hdone
    cases h with
    | cons _ hserve hout _ => exact ⟨_, _, hserve, hout⟩
  | cons g done ih =>
    simp only [Protocol.serveAll, Option.bind_eq_bind, Option.bind_eq_some_iff] at hdone
    obtain ⟨⟨out, next⟩, hserve, ⟨rest, last⟩, hall, hresult⟩ := hdone
    cases hresult
    cases h with
    | cons _ hserve' _ hrest =>
      obtain ⟨-, rfl⟩ := Prod.mk.inj (Option.some.inj (hserve.symm.trans hserve'))
      exact ih hrest hall

end Caller

/-- Requests that have been received as a whole are among those that have been sent. -/
theorem Protocol.prefix_of_stream (P : Protocol F β ω σ) {calls served front : List F}
    (hitems : ∀ f ∈ calls, P.items f ≠ []) (hserved : served <+: calls) (hfront : front <+: calls)
    (h : P.stream served <+: P.stream front) : served <+: front := by
  rcases List.prefix_or_prefix_of_prefix hserved hfront with hle | ⟨more, rfl⟩
  · exact hle
  · cases more with
    | nil => simp
    | cons f more =>
      have hpos : 0 < (P.items f).length :=
        List.length_pos_of_ne_nil (hitems f (hserved.subset (by simp)))
      have hlength := h.length_le
      rw [P.stream_append, P.stream_cons, List.length_append, List.length_append] at hlength
      omega

/-- A server that has received items and has put out items: it has served the first of the requests,
each once and in order, and is left with items of the next ones. -/
def Protocol.Serves (P : Protocol F β ω σ) (calls : List F) (s : σ) (received left : List β)
    (output : List ω) : Prop :=
  ∃ served store, served <+: calls ∧ received = P.stream served ++ left ∧
    P.serveAll served s = some (output, store)

section Same

variable {G : Type} {P : Protocol F β ω σ} {Q : Protocol G β ω σ} {fs : List F} {gs : List G}

/-- Requests of two protocols that are written and served alike. -/
def Protocol.Same (P : Protocol F β ω σ) (Q : Protocol G β ω σ) (f : F) (g : G) : Prop :=
  P.items f = Q.items g ∧ P.serve f = Q.serve g

theorem Protocol.serveAll_eq_of_same (h : List.Forall₂ (P.Same Q) fs gs) (s : σ) :
    P.serveAll fs s = Q.serveAll gs s := by
  induction h generalizing s with
  | nil => rfl
  | cons hsame _ ih => simp only [Protocol.serveAll, hsame.2, ih]

theorem Protocol.stream_eq_of_same (h : List.Forall₂ (P.Same Q) fs gs) :
    P.stream fs = Q.stream gs := by
  induction h with
  | nil => rfl
  | cons hsame _ ih => rw [P.stream_cons, Q.stream_cons, hsame.1, ih]

theorem Protocol.Serves.of_same (h : List.Forall₂ (P.Same Q) fs gs) {s : σ}
    {received left : List β} {output : List ω} (hserves : P.Serves fs s received left output) :
    Q.Serves gs s received left output := by
  obtain ⟨served, store, hserved, rfl, hall⟩ := hserves
  rw [List.prefix_iff_eq_take.mp hserved] at hall ⊢
  have htake := List.forall₂_take served.length h
  exact ⟨gs.take served.length, store, List.take_prefix _ _,
    by rw [Protocol.stream_eq_of_same htake], (Protocol.serveAll_eq_of_same htake s) ▸ hall⟩

end Same

/-- A caller and a server with a connection between them: the calls to be made, the one that is
being made, with the items of its request that are still to be sent and what has been read of its
response, all that has been sent and read so far, and what the server has received and put out. -/
structure Exchange (F β ω α : Type) where
  todo : List F
  call : Option F := none
  sending : List β := []
  response : List ω := []
  returned : List α := []
  sent : List β := []
  fetched : List ω := []
  received : List β := []
  output : List ω := []

namespace Exchange

variable {C : Caller F ω σ α} {P : Protocol F β ω σ} {calls : List F} {s : σ}
  {x x' : Exchange F β ω α}

/-- The caller and the server go on, and the connection carries items both ways in pieces. -/
inductive Step (C : Caller F ω σ α) (P : Protocol F β ω σ) (calls : List F) (s : σ) :
    Exchange F β ω α → Exchange F β ω α → Prop where
  | call (x : Exchange F β ω α) {f : F} {todo : List F} (hcall : x.call = none)
      (htodo : x.todo = f :: todo) :
      Step C P calls s x { x with todo, call := some f, sending := P.items f }
  | send (x : Exchange F β ω α) {f : F} {piece rest : List β} (hcall : x.call = some f)
      (hsending : x.sending = piece ++ rest) :
      Step C P calls s x { x with sending := rest, sent := x.sent ++ piece }
  | serve (x : Exchange F β ω α) {received left : List β} {output : List ω}
      (hserves : P.Serves calls s received left output) (hreceived : received <+: x.sent)
      (houtput : x.output <+: output) : Step C P calls s x { x with received, output }
  | read (x : Exchange F β ω α) {f : F} {piece : List ω} (hcall : x.call = some f)
      (hsending : x.sending = []) (hpiece : x.fetched ++ piece <+: x.output)
      (hstop : C.mayStop f (x.response ++ piece)) :
      Step C P calls s x { x with response := x.response ++ piece, fetched := x.fetched ++ piece }
  | done (x : Exchange F β ω α) {f : F} {a : α} (hcall : x.call = some f)
      (hsending : x.sending = []) (hdecode : C.decode f x.response = some a) :
      Step C P calls s x { x with call := none, response := [], returned := x.returned ++ [a] }

/-- The calls that have returned are served, have returned their results, and nothing of what was
sent or read belongs to a call that is still to be made. -/
structure Sound (C : Caller F ω σ α) (P : Protocol F β ω σ) (calls : List F) (s : σ)
    (x : Exchange F β ω α) (done : List F) (output : List ω) (store : σ) : Prop where
  order : calls = done ++ (x.call.toList ++ x.todo)
  served : P.serveAll done s = some (output, store)
  returned : x.returned = C.results P done s
  sent : x.sent ++ x.sending = P.stream (done ++ x.call.toList)
  fetched : x.fetched = output ++ x.response
  idle : x.call = none → x.sending = [] ∧ x.response = []
  mayStop : ∀ f, x.call = some f → C.mayStop f x.response
  serves : ∃ left, P.Serves calls s x.received left x.output
  prefixes : x.received <+: x.sent ∧ x.fetched <+: x.output

variable {done : List F} {output : List ω} {store : σ}

/-- What has been sent is the beginning of the requests. -/
theorem Sound.sent_le (h : Sound C P calls s x done output store) : x.sent <+: P.stream calls := by
  have hfront : P.stream (done ++ x.call.toList) <+: P.stream calls := by
    rw [h.order, ← List.append_assoc, P.stream_append _ x.todo]
    exact List.prefix_append _ _
  exact (h.sent ▸ List.prefix_append _ _ : x.sent <+: _).trans hfront

/-- What the server has served are the calls up to the one that is being made. -/
theorem Sound.front_of_served (h : Sound C P calls s x done output store)
    (hvalid : C.Valid P calls s) {left : List β} {served : List F} (hserved : served <+: calls)
    (hreceived : x.received = P.stream served ++ left) : served <+: done ++ x.call.toList := by
  refine P.prefix_of_stream hvalid.items_ne_nil hserved ?_ ?_
  · exact ⟨x.todo, by rw [h.order, List.append_assoc]⟩
  · calc
      P.stream served <+: x.received := hreceived ▸ List.prefix_append _ _
      _ <+: x.sent := h.prefixes.1
      _ <+: x.sent ++ x.sending := List.prefix_append _ _
      _ = P.stream (done ++ x.call.toList) := h.sent

/-- What is read of a response is the beginning of the one that the call gets. -/
theorem Sound.front_of_response (h : Sound C P calls s x done output store)
    (hvalid : C.Valid P calls s) {f : F} (hcall : x.call = some f) :
    ∃ out next, P.serve f store = some (out, next) ∧ C.Understands f store out ∧
      P.serveAll (done ++ [f]) s = some (output ++ out, next) ∧ x.response <+: out := by
  obtain ⟨left, served, last, hserved, hreceived, hall⟩ := h.serves
  have hfront := h.front_of_served hvalid hserved hreceived
  have horder := h.order
  rw [hcall] at horder hfront
  obtain ⟨out, next, hserve, hout⟩ := (horder ▸ hvalid).next h.served
  have hboth : P.serveAll (done ++ [f]) s = some (output ++ out, next) := by
    rw [P.serveAll_append, h.served]
    simp [Protocol.serveAll, hserve]
  have hfetched := h.prefixes.2.trans (P.prefix_of_serveAll hfront hall hboth)
  rw [h.fetched] at hfetched
  exact ⟨out, next, hserve, hout, hboth, (List.prefix_append_right_inj _).mp hfetched⟩

theorem Sound.step (h : Sound C P calls s x done output store) (hvalid : C.Valid P calls s)
    (hstep : Step C P calls s x x') :
    ∃ done output store, Sound C P calls s x' done output store := by
  obtain ⟨hreceived, hfetched⟩ := h.prefixes
  cases hstep with
  | @call f todo hcall htodo =>
    have horder := h.order
    have hsent := h.sent
    obtain ⟨hsending, hresponse⟩ := h.idle hcall
    simp only [hcall, htodo, hsending, Option.toList_none, List.nil_append,
      List.append_nil] at horder hsent
    obtain ⟨out, next, -, hout⟩ := (horder ▸ hvalid).next h.served
    refine ⟨done, output, store, ⟨by simpa using horder, h.served, h.returned, ?_, h.fetched,
      (fun hnone => nomatch hnone), fun g hg => ?_, h.serves, h.prefixes⟩⟩
    · simp [hsent]
    · cases hg
      simp only [hresponse]
      exact hout.start
  | @send f piece rest hcall hsending =>
    refine ⟨done, output, store, ⟨h.order, h.served, h.returned, ?_, h.fetched, fun hnone => ?_,
      h.mayStop, h.serves, hreceived.trans (List.prefix_append _ _), hfetched⟩⟩
    · rw [← h.sent, hsending, List.append_assoc]
    · exact absurd (hcall.symm.trans hnone) (by simp)
  | serve hserves hreceived' houtput =>
    exact ⟨done, output, store, ⟨h.order, h.served, h.returned, h.sent, h.fetched, h.idle,
      h.mayStop, ⟨_, hserves⟩, hreceived', hfetched.trans houtput⟩⟩
  | @read f piece hcall hsending hpiece hstop =>
    refine ⟨done, output, store, ⟨h.order, h.served, h.returned, h.sent, ?_, fun hnone => ?_,
      fun g hg => ?_, h.serves, hreceived, hpiece⟩⟩
    · rw [h.fetched, List.append_assoc]
    · exact absurd (hcall.symm.trans hnone) (by simp)
    · obtain rfl := Option.some.inj (hcall.symm.trans hg)
      exact hstop
  | @done f a hcall hsending hdecode =>
    obtain ⟨out, next, hserve, hout, hboth, hresponse⟩ := h.front_of_response hvalid hcall
    have hwhole : x.response = out := by
      by_contra hne
      have hcut := hout.cut x.response hresponse hne (h.mayStop f hcall)
      rw [hcut] at hdecode
      cases hdecode
    have hresult : C.result f store = a := by
      rw [hwhole, hout.whole] at hdecode
      exact Option.some.inj hdecode
    have horder := h.order
    have hsent := h.sent
    rw [hcall] at horder hsent
    refine ⟨done ++ [f], output ++ out, next, ⟨?_, hboth, ?_, ?_, ?_, fun _ => ⟨hsending, rfl⟩,
      (fun g hg => nomatch hg), h.serves, hreceived, hfetched⟩⟩
    · simpa using horder
    · rw [h.returned, Caller.results_append h.served, ← hresult]
      simp [Caller.results, hserve]
    · simpa using hsent
    · rw [h.fetched, hwhole, List.append_nil]

theorem sound_of_run (hvalid : C.Valid P calls s)
    (hrun : ReflTransGen (Step C P calls s) { todo := calls } x) :
    ∃ done output store, Sound C P calls s x done output store := by
  induction hrun with
  | refl =>
    exact ⟨[], [], s, ⟨rfl, rfl, rfl, rfl, rfl, fun _ => ⟨rfl, rfl⟩, (fun _ h => nomatch h),
      ⟨[], [], s, List.nil_prefix, rfl, rfl⟩, List.nil_prefix, List.nil_prefix⟩⟩
  | tail _ hstep ih =>
    obtain ⟨done, output, store, h⟩ := ih
    exact h.step hvalid hstep

/-- Once the server has all of a request and is done with it, its response is put out. -/
theorem Sound.output_of_quiet (h : Sound C P calls s x done output store)
    (hvalid : C.Valid P calls s) {f : F} (hcall : x.call = some f) (hsending : x.sending = [])
    (hreceived : x.received = x.sent) (hserves : P.Serves calls s x.received [] x.output) :
    ∃ out next, P.serve f store = some (out, next) ∧ C.Understands f store out ∧
      x.output = output ++ out := by
  obtain ⟨out, next, hserve, hout, hboth, -⟩ := h.front_of_response hvalid hcall
  obtain ⟨served, last, hserved, hstream, hall⟩ := hserves
  have hfront := h.front_of_served hvalid hserved hstream
  have hsent := h.sent
  have horder := h.order
  rw [hcall] at hsent horder hfront
  rw [hsending, List.append_nil] at hsent
  rw [List.append_nil, hreceived, hsent] at hstream
  have hback : done ++ [f] <+: served :=
    P.prefix_of_stream hvalid.items_ne_nil ⟨x.todo, by simp [horder]⟩ hserved
      (hstream ▸ List.prefix_rfl)
  obtain rfl : served = done ++ [f] := hfront.eq_of_length_le hback.length_le
  rw [hboth] at hall
  exact ⟨out, next, hserve, hout, (Prod.mk.inj (Option.some.inj hall)).1.symm⟩

/-- Once nothing is on the way any more, no call reads on. -/
theorem Sound.returns_of_quiet (h : Sound C P calls s x done output store)
    (hvalid : C.Valid P calls s) {f : F} (hcall : x.call = some f) (hsending : x.sending = [])
    (hreceived : x.received = x.sent) (hserves : P.Serves calls s x.received [] x.output)
    (hfetched : x.fetched = x.output) : C.decode f x.response = some (C.result f store) := by
  obtain ⟨out, next, -, hout, houtput⟩ :=
    h.output_of_quiet hvalid hcall hsending hreceived hserves
  rw [h.fetched, houtput] at hfetched
  rw [List.append_cancel_left hfetched, hout.whole]

end Exchange

end Incremental
