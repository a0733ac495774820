import Memcarrot.Server.Requests
import Memcarrot.Server.Rounds
import Memcarrot.Support.ListStore
import Memcarrot.Transition.Runs

open Incremental RawMemory Relation Transition

namespace Memcarrot.WorkThread

open Wire CommandProcessor

variable {σ : Type} {services : Services σ} {bufferSize : Nat}

/-- The read of the channel succeeds. -/
def Event.Delivers : Event → Prop
  | .hangUp => False
  | _ => True

section Rounds

variable {st : WorkThread σ} {r : Request services.utils} {rest : List UInt8}

/-- The round for a request at the front of the unconsumed bytes. -/
theorem round_of_request (hphase : st.phase = .processing) (hst : st.Bounded)
    (hrest : st.unconsumed = r.bytes ++ rest) {replyPtr : Int} (hreply : 0 < replyPtr)
    {out : List UInt8} {store : σ}
    (hfeed : feed services bufferSize replyPtr r st.store = some (out, store)) :
    st.round services bufferSize = { st with
      store
      executed := st.executed ++ [r.operation]
      written := st.written ++ out
      consumed := st.consumed + r.bytes.length } := by
  obtain ⟨bytes, houtcome, hfits, rfl, rfl⟩ := (feed_eq_some_iff hreply).mp hfeed
  have hlength := length_unconsumed hphase hst
  have hpos := r.length_bytes_pos
  have hptr := hst.inPtr_pos
  have hnonneg := hst.consumed_nonneg
  rw [hrest, List.length_append] at hlength
  have hmore : st.consumed < st.inputSize := by omega
  have hsize : ((st.inputSize - st.consumed).toNat : Int) = st.inputSize - st.consumed := by omega
  rw [unconsumed_eq hphase] at hrest
  have hprocess := process_request (by omega) hrest bufferSize st.store
  rw [hsize] at hprocess
  have hquit : (r.command (st.inPtr + st.consumed)).cls ≠ .QUIT := by
    rw [r.cls_command]
    exact r.cls_ne.1
  rw [round, if_pos hmore, hprocess]
  simp only [houtcome, Outcome.result, respond, gt_iff_lt, Nat.not_lt.mpr hfits, if_false, hquit,
    r.inputConsumed_command, Option.toList_some, List.append_assoc]

/-- The round for a request that is cut off. -/
theorem round_of_cut (hphase : st.phase = .processing) (hst : st.Bounded)
    (hsingle : r.SingleSpaced) (hne : st.unconsumed ≠ []) (hcut : st.unconsumed <+: r.bytes)
    (hcutOff : st.unconsumed ≠ r.bytes) : st.round services bufferSize = st.compact := by
  have hlength := length_unconsumed hphase hst
  have hpos := List.length_pos_of_ne_nil hne
  have hmore : st.consumed < st.inputSize := by omega
  have hsize : ((st.inputSize - st.consumed).toNat : Int) = st.inputSize - st.consumed := by omega
  rw [unconsumed_eq hphase] at hcut hcutOff
  have hprocess := process_cut hsingle hcut hcutOff bufferSize st.store
  rw [hsize] at hprocess
  rw [round, if_pos hmore, hprocess]
  simp only [Option.toList_none, List.flatten_nil, List.append_nil]

end Rounds

variable {requests : List (Request services.utils)} {replyPtr : Int}

/-- All that is left of the input is the beginning of the next request. -/
def CutOff (requests : List (Request services.utils))
    (t : Session (Request services.utils) UInt8 UInt8 σ) : Prop :=
  t.input = [] ∨ ∃ r todo, requests = t.served ++ r :: todo ∧ t.input <+: r.bytes ∧
    t.input ≠ r.bytes

/-- Bytes without a whole request, where these requests are to come: the beginning of the first of
them. -/
def Unfinished (todo : List (Request services.utils)) (rest : List UInt8) : Prop :=
  rest = [] ∨ ∃ r left, todo = r :: left ∧ rest <+: r.bytes ∧ rest ≠ r.bytes

theorem CutOff.unfinished {t : Session (Request services.utils) UInt8 UInt8 σ}
    {todo : List (Request services.utils)} (htodo : t.served ++ todo = requests)
    (h : CutOff requests t) : Unfinished todo t.input := by
  rcases h with hempty | ⟨r, left, hrequests, hcut⟩
  · exact .inl hempty
  · exact .inr ⟨r, left, List.append_cancel_left (htodo.trans hrequests), hcut⟩

/-- The thread stands for a session on the list of requests. -/
structure Represents (requests : List (Request services.utils)) (st : WorkThread σ)
    (t : Session (Request services.utils) UInt8 UInt8 σ) : Prop where
  isOpen : st.phase.isOpen = true
  reading : st.phase = .reading → 0 < st.inPtr ∧ st.position = st.inputSize ∧ CutOff requests t
  processing : st.phase = .processing → st.Bounded
  served : t.served <+: requests
  received : st.received = t.received
  unconsumed : st.unconsumed = t.input
  executed : st.executed = t.served.map Request.operation
  written : st.written = t.output
  store : st.store = t.store

/-- A session stays as it is or makes a step. -/
abbrev Follows (services : Services σ) (bufferSize : Nat) (replyPtr : Int) :=
  ReflGen (Session.Step (protocol services bufferSize replyPtr))

theorem Represents.start (s : σ) :
    Represents requests ({ store := s } : WorkThread σ) { store := s } :=
  ⟨rfl, by simp, by simp, List.nil_prefix, rfl, rfl, rfl, rfl, rfl⟩

section Steps

variable {st : WorkThread σ} {t : Session (Request services.utils) UInt8 UInt8 σ} {s : σ}
  {result : List UInt8 × σ}

/-- What is in the buffer is the beginning of the requests that are still to be served. -/
theorem Represents.exists_todo (h : Represents requests st t)
    (hsound : Session.Sound (protocol services bufferSize replyPtr) s t)
    (hreceived : st.received <+: (protocol services bufferSize replyPtr).stream requests) :
    ∃ todo, requests = t.served ++ todo ∧
      t.input <+: (protocol services bufferSize replyPtr).stream todo := by
  obtain ⟨todo, rfl⟩ := h.served
  refine ⟨todo, rfl, ?_⟩
  rw [h.received, hsound.received, Protocol.stream_append] at hreceived
  exact (List.prefix_append_right_inj _).mp hreceived

/-- A round follows the session, and the loop comes closer to its end. -/
theorem Represents.round (h : Represents requests st t) (hphase : st.phase = .processing)
    (hsound : Session.Sound (protocol services bufferSize replyPtr) s t) (hreply : 0 < replyPtr)
    (hsingle : ∀ r ∈ requests, r.SingleSpaced)
    (hreplies : (protocol services bufferSize replyPtr).serveAll requests s = some result)
    (hreceived : st.received <+: (protocol services bufferSize replyPtr).stream requests) :
    ∃ t', Follows services bufferSize replyPtr t t' ∧
      Represents requests (st.round services bufferSize) t' ∧
      ((st.round services bufferSize).phase = .processing →
        (st.round services bufferSize).unconsumed.length < st.unconsumed.length) := by
  have hst := h.processing hphase
  by_cases hempty : t.input = []
  · rw [round_of_empty hphase hst (h.unconsumed.trans hempty)]
    exact ⟨t, .refl, ⟨rfl, by simp, by simp, h.served, h.received, hempty.symm, h.executed,
      h.written, h.store⟩, by simp⟩
  obtain ⟨todo, htodo, hinput⟩ := h.exists_todo hsound hreceived
  obtain ⟨r, todo, rfl, ⟨rest, hrest, -⟩ | ⟨hcut, hne⟩⟩ := prefix_stream_cases _ hinput hempty
  · obtain ⟨out, next, hserve, -⟩ := Protocol.serve_of_serveAll _ (htodo ▸ hreplies) hsound.served
    rw [round_of_request hphase hst (h.unconsumed.trans hrest) hreply (h.store ▸ hserve)]
    have hunconsumed := h.unconsumed.trans hrest
    have hlength := congrArg List.length hunconsumed
    rw [List.length_append] at hlength
    have hpos : 0 < ((protocol services bufferSize replyPtr).items r).length := r.length_bytes_pos
    obtain ⟨hbounded, hmoved⟩ := consume_spec hphase hst (Nat.le.intro hlength.symm) next
      (st.executed ++ [r.operation]) (st.written ++ out)
    rw [hunconsumed, List.drop_left] at hmoved
    refine ⟨_, .single (.serve t r rest out next hrest hserve), ?_, fun _ => ?_⟩
    · refine ⟨h.isOpen, by simp [hphase], fun _ => hbounded, ?_, h.received, hmoved, ?_, ?_, rfl⟩
      · exact ⟨todo, by rw [htodo]; simp⟩
      · simp only [h.executed, List.map_append, List.map_cons, List.map_nil]
      · simp only [h.written]
    · rw [hlength]
      apply (congrArg List.length hmoved).trans_lt
      omega
  · have hr : r ∈ requests := by simp [htodo]
    rw [round_of_cut hphase hst (hsingle r hr) (by rwa [h.unconsumed])
      (by rwa [h.unconsumed]) (by rwa [h.unconsumed])]
    obtain ⟨hunconsumed, hreading, hposition, hcompact⟩ := compact_spec hphase hst
    refine ⟨t, .refl, ?_, by simp [hreading]⟩
    refine ⟨by rw [hreading]; rfl, fun _ => ⟨?_, hposition, .inr ⟨r, todo, htodo, hcut, hne⟩⟩,
      by simp [hreading], h.served, ?_, hunconsumed.trans h.unconsumed, ?_, ?_, ?_⟩
    · rw [hcompact]
      exact hst.inPtr_pos
    · rw [hcompact]
      exact h.received
    · rw [hcompact]
      exact h.executed
    · rw [hcompact]
      exact h.written
    · rw [hcompact]
      exact h.store

theorem CutOff.length_lt (h : CutOff requests t) (hbuffer : 0 < bufferSize)
    (hsize : ∀ r ∈ requests, r.bytes.length ≤ bufferSize) : t.input.length < bufferSize := by
  rcases h with hempty | ⟨r, todo, rfl, hcut, hne⟩
  · rw [hempty]
    exact hbuffer
  · have hle := hsize r (by simp)
    have hlength := hcut.length_le
    have hne : t.input.length ≠ r.bytes.length := fun heq => hne (hcut.eq_of_length heq)
    omega

/-- The input buffer is never full when the channel is read. -/
theorem Represents.room (h : Represents requests st t) (hphase : st.phase = .reading)
    (hbuffer : 0 < bufferSize) (hsize : ∀ r ∈ requests, r.bytes.length ≤ bufferSize) :
    st.inputSize < bufferSize := by
  have hlength := (h.reading hphase).2.2.length_lt hbuffer hsize
  rw [← h.unconsumed] at hlength
  simpa [WorkThread.unconsumed, hphase] using hlength

theorem Represents.activate (h : Represents requests st t) (hphase : st.phase = .waiting)
    (memory : Memory) {inPtr : Int} (hptr : 0 < inPtr) :
    Represents requests { st with phase := .reading, memory, inPtr, position := 0, inputSize := 0 }
      t := by
  have hempty : t.input = [] := by
    rw [← h.unconsumed, WorkThread.unconsumed, hphase]
  exact ⟨rfl, fun _ => ⟨hptr, rfl, .inl hempty⟩, by simp, h.served, h.received, hempty.symm,
    h.executed, h.written, h.store⟩

theorem Represents.read (h : Represents requests st t) (hphase : st.phase = .reading)
    (bytes : List UInt8) :
    Represents requests { st with
      memory := st.memory.write (st.inPtr + st.position) bytes
      position := st.position + bytes.length
      inputSize := st.inputSize + bytes.length
      consumed := 0
      received := st.received ++ bytes
      phase := .processing } { t with
      received := t.received ++ bytes, input := t.input ++ bytes } := by
  obtain ⟨hptr, hposition, -⟩ := h.reading hphase
  have hwritten := Memory.slice_write_append st.memory st.inPtr st.inputSize bytes
  have hbefore := h.unconsumed
  simp only [WorkThread.unconsumed, hphase] at hbefore
  refine ⟨rfl, by simp, fun _ => ⟨hptr, by simp only [hposition], by simp, by simp; omega⟩,
    h.served, ?_, ?_, h.executed, h.written, h.store⟩
  · simp only [h.received]
  · simp only [WorkThread.unconsumed, hposition, Int.add_zero, Int.sub_zero, Int.toNat_natCast,
      hwritten, hbefore]

@[simp] theorem outputTooLarge_received (st : WorkThread σ) :
    (st.outputTooLarge bufferSize).received = st.received := by
  unfold outputTooLarge
  split <;> rfl

@[simp] theorem round_received (st : WorkThread σ) :
    (st.round services bufferSize).received = st.received := by
  unfold round
  split
  · simp only
    split
    · unfold compact
      split <;> rfl
    · unfold respond
      split
      · rfl
      · simp only
        split
        · rfl
        · split <;> rfl
    · rw [outputTooLarge_received]
    · rfl
    · rfl
  · rfl

@[simp] theorem advance_received (st : WorkThread σ) :
    (st.advance services bufferSize).received = st.received := by
  unfold advance
  split
  · exact round_received st
  · split
    · unfold inputTooLarge
      split
      · rfl
      · exact outputTooLarge_received st
    · rfl
  · rfl

theorem received_of_step {st' : WorkThread σ} {e : Event}
    (hstep : st.step services bufferSize e = some st') : st.received <+: st'.received := by
  cases e with
  | advance =>
    simp only [step, Option.some.injEq] at hstep
    rw [← hstep, advance_received]
  | read bytes =>
    simp only [step, Option.ite_none_right_eq_some, Option.some.injEq] at hstep
    obtain ⟨-, rfl⟩ := hstep
    exact List.prefix_append _ _
  | _ =>
    simp only [step, Option.ite_none_right_eq_some, Option.some.injEq] at hstep
    obtain ⟨-, rfl⟩ := hstep
    exact List.prefix_rfl

/-- The requests of a connection, each of which fits into the input buffer and, fed alone, gets
a reply. -/
structure Served (services : Services σ) (bufferSize : Nat) (replyPtr : Int)
    (requests : List (Request services.utils)) (s : σ) (result : List UInt8 × σ) : Prop where
  replyPtr_pos : 0 < replyPtr
  bufferSize_pos : 0 < bufferSize
  singleSpaced : ∀ r ∈ requests, r.SingleSpaced
  fits : ∀ r ∈ requests, r.bytes.length ≤ bufferSize
  replies : (protocol services bufferSize replyPtr).serveAll requests s = some result

/-- A thread that stands for a session goes on as the session does. -/
theorem Represents.advance (h : Represents requests st t)
    (hserved : Served services bufferSize replyPtr requests s result)
    (hsound : Session.Sound (protocol services bufferSize replyPtr) s t)
    (hreceived : st.received <+: (protocol services bufferSize replyPtr).stream requests) :
    ∃ t', Follows services bufferSize replyPtr t t' ∧
      Represents requests (st.advance services bufferSize) t' ∧
      ((st.advance services bufferSize).phase = .processing →
        (st.advance services bufferSize).unconsumed.length < st.unconsumed.length) := by
  unfold WorkThread.advance
  cases hphase : st.phase with
  | processing =>
    exact h.round hphase hsound hserved.replyPtr_pos hserved.singleSpaced hserved.replies hreceived
  | reading =>
    have hroom := h.room hphase hserved.bufferSize_pos hserved.fits
    simp only [Nat.ne_of_lt hroom, if_false]
    exact ⟨t, .refl, h, by simp [hphase]⟩
  | waiting => exact ⟨t, .refl, h, by simp [hphase]⟩
  | closed | dead | exited =>
    have hopen := h.isOpen
    rw [hphase] at hopen
    cases hopen

theorem Represents.step (h : Represents requests st t)
    (hserved : Served services bufferSize replyPtr requests s result)
    (hsound : Session.Sound (protocol services bufferSize replyPtr) s t)
    (hreceived : st.received <+: (protocol services bufferSize replyPtr).stream requests)
    {e : Event} (he : e.Delivers) {st' : WorkThread σ}
    (hstep : st.step services bufferSize e = some st') :
    ∃ t', Follows services bufferSize replyPtr t t' ∧ Represents requests st' t' := by
  cases e with
  | activate memory inPtr =>
    simp only [WorkThread.step, Option.ite_none_right_eq_some, Option.some.injEq] at hstep
    obtain ⟨⟨hphase, hptr⟩, rfl⟩ := hstep
    exact ⟨t, .refl, h.activate hphase memory hptr⟩
  | read bytes =>
    simp only [WorkThread.step, Option.ite_none_right_eq_some, Option.some.injEq] at hstep
    obtain ⟨⟨-, hphase, -, -⟩, rfl⟩ := hstep
    exact ⟨_, .single (.receive t bytes), h.read hphase bytes⟩
  | readNothing =>
    simp only [WorkThread.step, Option.ite_none_right_eq_some, Option.some.injEq] at hstep
    obtain ⟨-, rfl⟩ := hstep
    exact ⟨t, .refl, h⟩
  | hangUp => exact absurd he id
  | advance =>
    simp only [WorkThread.step, Option.some.injEq] at hstep
    obtain ⟨t', hfollows, hrep, -⟩ := h.advance hserved hsound hreceived
    exact ⟨t', hfollows, hstep ▸ hrep⟩

/-- Every run on the requests stands for a session on them, whatever the reads. -/
theorem exists_session (hserved : Served services bufferSize replyPtr requests s result)
    (hrun : Runs services bufferSize Event.Delivers { store := s } st)
    (hreceived : st.received <+: (protocol services bufferSize replyPtr).stream requests) :
    ∃ t, ReflTransGen (Session.Step (protocol services bufferSize replyPtr)) { store := s } t ∧
      Represents requests st t := by
  induction hrun with
  | refl => exact ⟨_, .refl, .start s⟩
  | tail _ hstep ih =>
    obtain ⟨e, he, hstep⟩ := hstep
    have hbefore := (received_of_step hstep).trans hreceived
    obtain ⟨t, hsession, hrep⟩ := ih hbefore
    obtain ⟨t', hfollows, hrep'⟩ :=
      hrep.step hserved (Session.sound_of_run hsession) hbefore he hstep
    exact ⟨t', hsession.trans hfollows.to_reflTransGen, hrep'⟩

/-- The loop over the requests comes to its end. -/
theorem exists_advance (hserved : Served services bufferSize replyPtr requests s result)
    (hrep : Represents requests st t)
    (hsession : ReflTransGen (Session.Step (protocol services bufferSize replyPtr))
      { store := s } t)
    (hreceived : st.received <+: (protocol services bufferSize replyPtr).stream requests) :
    ∃ n t', ReflTransGen (Session.Step (protocol services bufferSize replyPtr))
        { store := s } t' ∧
      Represents requests ((WorkThread.advance services bufferSize)^[n] st) t' ∧
      ((WorkThread.advance services bufferSize)^[n] st).phase ≠ .processing ∧
      ((WorkThread.advance services bufferSize)^[n] st).received = st.received := by
  generalize hlength : st.unconsumed.length = length
  induction length using Nat.strong_induction_on generalizing st t with
  | _ length ih =>
    by_cases hphase : st.phase = .processing
    · obtain ⟨t', hfollows, hrep', hless⟩ := hrep.advance hserved (Session.sound_of_run hsession)
        hreceived
      have hsession' := hsession.trans hfollows.to_reflTransGen
      by_cases hphase' : (st.advance services bufferSize).phase = .processing
      · obtain ⟨n, last, hlast⟩ := ih _ (hlength ▸ hless hphase') hrep' hsession'
          (by rwa [advance_received]) rfl
        rw [advance_received] at hlast
        exact ⟨n + 1, last, hlast⟩
      · exact ⟨1, t', hsession', hrep', hphase', advance_received st⟩
    · exact ⟨0, t, hsession, hrep, hphase, rfl⟩

/-- Outside of the loop over the requests, no whole request is left of the input. -/
theorem Represents.cutOff (h : Represents requests st t) (hphase : st.phase ≠ .processing) :
    CutOff requests t := by
  cases hst : st.phase with
  | waiting =>
    have hempty : t.input = [] := by rw [← h.unconsumed, WorkThread.unconsumed, hst]
    exact .inl hempty
  | reading => exact (h.reading hst).2.2
  | processing => exact absurd hst hphase
  | closed | dead | exited =>
    have hopen := h.isOpen
    rw [hst] at hopen
    cases hopen

/-- Outside of the loop over the requests, a received stream is a served one. -/
theorem Represents.served_eq (h : Represents requests st t)
    (hsound : Session.Sound (protocol services bufferSize replyPtr) s t)
    (hphase : st.phase ≠ .processing)
    (hall : st.received = (protocol services bufferSize replyPtr).stream requests) :
    t.input = [] ∧ t.served = requests := by
  obtain ⟨todo, htodo⟩ := h.served
  have hinput : t.input = (protocol services bufferSize replyPtr).stream todo := by
    rw [h.received, hsound.received, ← htodo, Protocol.stream_append] at hall
    exact List.append_cancel_left hall
  have hempty : t.input = [] := by
    rcases (h.cutOff hphase).unfinished htodo with hempty | ⟨r, left, htail, hcut, hne⟩
    · exact hempty
    · rw [htail, Protocol.stream_cons] at hinput
      have hlength := hcut.length_le
      have hbytes := congrArg List.length hinput
      rw [List.length_append] at hbytes
      simp only [protocol] at hbytes
      exact absurd (hcut.eq_of_length (by omega)) hne
  refine ⟨hempty, ?_⟩
  cases todo with
  | nil => simpa using htodo
  | cons r todo =>
    have hpos := r.length_bytes_pos
    have hlength := congrArg List.length (hempty.symm.trans hinput)
    rw [Protocol.stream_cons, List.length_append] at hlength
    simp only [protocol, List.length_nil] at hlength
    omega

end Steps

/-- Pipelined requests are executed in order, each once, however the stream is cut into reads: the
channel stays open, what is written are the replies to the requests fed one at a time, and once
the stream is received the thread comes to the end of it. -/
theorem run_pipelined {s : σ} {st : WorkThread σ} {result : List UInt8 × σ}
    (hserved : Served services bufferSize replyPtr requests s result)
    (hrun : Runs services bufferSize Event.Delivers { store := s } st)
    (hreceived : st.received <+: (protocol services bufferSize replyPtr).stream requests) :
    st.phase.isOpen = true ∧ (st.phase = .reading → st.inputSize < bufferSize) ∧
    (∃ served todo, requests = served ++ todo ∧
      st.received = (protocol services bufferSize replyPtr).stream served ++ st.unconsumed ∧
      st.executed = served.map Request.operation ∧
      (protocol services bufferSize replyPtr).serveAll served s = some (st.written, st.store)) ∧
    ∃ n, let last := (WorkThread.advance services bufferSize)^[n] st
      last.phase ≠ .processing ∧
      (st.received = (protocol services bufferSize replyPtr).stream requests →
        last.phase.isOpen = true ∧ last.unconsumed = [] ∧
        last.executed = requests.map Request.operation ∧ (last.written, last.store) = result) := by
  obtain ⟨t, hsession, hrep⟩ := exists_session hserved hrun hreceived
  have hsound := Session.sound_of_run hsession
  obtain ⟨todo, htodo⟩ := hrep.served
  refine ⟨hrep.isOpen, fun hphase => hrep.room hphase hserved.bufferSize_pos hserved.fits,
    ⟨t.served, todo, htodo.symm, ?_, hrep.executed, ?_⟩, ?_⟩
  · rw [hrep.received, hrep.unconsumed, hsound.received]
  · rw [hrep.written, hrep.store, hsound.served]
  obtain ⟨n, t', hsession', hrep', hphase', hreceived'⟩ :=
    exists_advance hserved hrep hsession hreceived
  refine ⟨n, hphase', fun hall => ?_⟩
  have hsound' := Session.sound_of_run hsession'
  obtain ⟨hinput, hserved'⟩ := hrep'.served_eq hsound' hphase' (hreceived'.trans hall)
  have hresult := hsound'.served
  rw [hserved', hserved.replies] at hresult
  refine ⟨hrep'.isOpen, hrep'.unconsumed.trans hinput, ?_, ?_⟩
  · rw [hrep'.executed, hserved']
  · rw [hrep'.written, hrep'.store]
    exact (Option.some.inj hresult).symm

theorem run_pipelined_set_delete :
    let key : Key := ⟨ascii "k", by decide⟩
    let number (token : List UInt8) (value : Int) (h : IsToken token)
        (hvalue : decimalUtils.strToLongDirect token = some value) : Number listServices.utils :=
      ⟨token, value, h, hvalue⟩
    let zero := number (ascii "0") 0 (by decide) (by decide +kernel)
    let requests : List (Request listServices.utils) :=
      [.storage { cls := .SET, key, flags := zero, exptime := zero, size := zero, cas := none
                  gap := none, block := CRLF, isStorage := rfl, cas_isSome := rfl
                  flags_range := by decide, size_range := by decide, block_length := by decide },
       .delete { key, gap := none }]
    ∃ st : WorkThread ListStore,
      st.executed = (requests.take 1).map Request.operation ∧ st.phase.isOpen = true ∧
      (st.phase = .reading → st.inputSize < 64) ∧
      (∃ served todo, requests = served ++ todo ∧
        st.received = (protocol listServices 64 1).stream served ++ st.unconsumed ∧
        st.executed = served.map Request.operation ∧
        (protocol listServices 64 1).serveAll served {} = some (st.written, st.store)) ∧
      ∃ n, let last := (WorkThread.advance listServices 64)^[n] st
        last.phase ≠ .processing ∧ last.phase.isOpen = true ∧ last.unconsumed = [] ∧
        last.executed = requests.map Request.operation ∧
        (last.written, last.store) = (ascii "STORED\r\nDELETED\r\n", { lastCas := 1 }) := by
  intro key number zero requests
  have hserved : Served listServices 64 1 requests {}
      (ascii "STORED\r\nDELETED\r\n", { lastCas := 1 }) :=
    ⟨by decide, by decide, by simp [requests, Request.SingleSpaced], by decide +kernel,
      by decide +kernel⟩
  -- the second request is cut in two, and its end is read behind what the loop has moved
  let events : List Event :=
    [.activate (fun _ => 0) 1, .read (ascii "set k 0 0 0\r\n\r\ndel"), .advance, .advance,
      .read (ascii "ete k\r\n")]
  let start : WorkThread ListStore := { store := {} }
  have hlast : (follow (step listServices 64) start events).any (fun st =>
      st.received = (protocol listServices 64 1).stream requests ∧
      st.executed = (requests.take 1).map Request.operation) = true := by
    decide +kernel
  obtain ⟨st, hst, hfacts⟩ := (Option.any_eq_true _ _).mp hlast
  obtain ⟨hreceived, hexecuted⟩ := of_decide_eq_true hfacts
  have hdelivers : ∀ e ∈ events, ∀ _ : WorkThread ListStore, e.Delivers := by
    simp [events, Event.Delivers]
  have hrun : Runs listServices 64 Event.Delivers start st := runs_of_follow hst hdelivers
  obtain ⟨hopen, hroom, hexact, n, hphase, hdone⟩ :=
    run_pipelined hserved hrun (hreceived ▸ List.prefix_rfl)
  exact ⟨st, hexecuted, hopen, hroom, hexact, n, hphase, hdone hreceived⟩

end Memcarrot.WorkThread
