import Memcarrot.Server.Finishing
import Memcarrot.Server.Pipelining

open Incremental RawMemory Relation

namespace Memcarrot

open CommandProcessor Wire

variable {σ : Type} {services : Services σ} {bufferSize : Nat} {channel : Channel}

/-- The bytes of reads, those without bytes left out. -/
def ReadResult.incoming (reads : List ReadResult) : List UInt8 :=
  reads.flatMap fun result =>
    match result with
    | .bytes data => data
    | _ => []

namespace Activity

/-- What is still to be written. -/
def unsent : Activity σ → List UInt8
  | .writing _ remaining todo _ => remaining ++ (todo.map Output.bytes).flatten
  | _ => []

/-- The activation has ended without an exception. -/
def isReleased : Activity σ → Bool
  | .released thrown => !thrown
  | .running _ | .writing _ _ _ _ | .exited => false

theorem eq_released (activity : Activity σ) (h : activity.isReleased = true) :
    activity = .released false := by
  cases activity with
  | released thrown =>
    cases thrown with
    | false => rfl
    | true => cases h
  | running | writing | exited => cases h

/-- The activation is over, or its thread is to read the channel. -/
def Rests : Activity σ → Prop
  | .released _ => True
  | .running thread => thread.phase = .reading
  | .writing _ _ _ _ | .exited => False

theorem Rests.unsent_eq {activity : Activity σ} (h : activity.Rests) : activity.unsent = [] := by
  cases activity with
  | released | running => rfl
  | writing | exited => cases h

/-- The thread that goes on after that, or the one that was left. -/
def thread (left : WorkThread σ) : Activity σ → WorkThread σ
  | .running thread => thread
  | .writing _ _ _ next => next
  | .released _ | .exited => left

@[simp] theorem unsent_write (todo : List Output) (next : WorkThread σ) :
    (Activity.write todo next).unsent = (todo.map Output.bytes).flatten := by
  cases todo <;> rfl

@[simp] theorem thread_write (left : WorkThread σ) (todo : List Output) (next : WorkThread σ) :
    (Activity.write todo next).thread left = next := by
  cases todo <;> rfl

end Activity

namespace Serving

/-- What the channel takes in the next step. -/
def taken (channel : Channel) (s : Serving σ) : List UInt8 :=
  match s.activity with
  | .writing _ remaining _ _ =>
    match channel.attempt s.attempts with
    | .accepts count => remaining.take count
    | .throws => []
  | _ => []

/-- A write has thrown an IOException. -/
def Failed (channel : Channel) (s : Serving σ) : Prop :=
  ∃ i < s.attempts, channel.attempt i = .throws

end Serving

/-- A connection over its activations: what is going on with its key, the thread as the last
activation has left it, and all that its channel has taken. -/
structure Delivery (σ : Type) where
  serving : Serving σ
  left : WorkThread σ
  accepted : List UInt8 := []

namespace Delivery

/-- A connection of which nothing has been read, and what its reads will meet. -/
def start (s : σ) (reads : List ReadResult) : Delivery σ where
  serving := { activity := .released false, reads }
  left := { store := s }

/-- The thread that goes on once everything is written. -/
def thread (d : Delivery σ) : WorkThread σ := d.serving.activity.thread d.left

/-- The activation makes a step. -/
def next (services : Services σ) (bufferSize : Nat) (channel : Channel) (d : Delivery σ) :
    Delivery σ where
  serving := d.serving.step services bufferSize channel
  left := d.thread
  accepted := d.accepted ++ d.serving.taken channel

/-- A worker takes the key, which it does as long as the channel is open. After a Throwable the
steps end: the worker that takes the key then begins anew on the store as it is. -/
def activate (memory : Memory) (inPtr : Int) (d : Delivery σ) : Delivery σ :=
  let thread :=
    { d.left with phase := .reading, memory, inPtr, position := 0, inputSize := 0 }
  { d with serving := { d.serving with activity := .running thread } }

inductive Step (services : Services σ) (bufferSize : Nat) (channel : Channel) :
    Delivery σ → Delivery σ → Prop where
  | next (d : Delivery σ) : Step services bufferSize channel d (d.next services bufferSize channel)
  | activate (d : Delivery σ) (memory : Memory) {inPtr : Int} (hptr : 0 < inPtr)
      (hreleased : d.serving.activity = .released false) (hphase : d.left.phase = .waiting)
      (hchannel : ¬ d.serving.Failed channel) :
      Step services bufferSize channel d (d.activate memory inPtr)

/-- What the thread has written is what the channel has taken and what is still to be written. A
write that has thrown ends the activation, and the rest is lost. -/
structure Conserves (channel : Channel) (d : Delivery σ) : Prop where
  output : d.accepted ++ d.serving.activity.unsent = d.thread.written ∨
    d.serving.activity = .released false ∧ d.serving.Failed channel ∧
      d.accepted <+: d.thread.written
  ended : (∃ thrown, d.serving.activity = .released thrown) → ¬ d.serving.Failed channel →
    d.thread.phase ≠ .processing

/-- The thread of a connection is where it comes to with reads and writes that are done at once,
and nothing that was to be read is lost. -/
structure Sound (services : Services σ) (bufferSize : Nat) (channel : Channel) (s : σ)
    (reads : List ReadResult) (d : Delivery σ) : Prop where
  runs : WorkThread.Runs services bufferSize WorkThread.Event.Delivers { store := s } d.thread
  input : d.thread.received ++ ReadResult.incoming d.serving.reads = ReadResult.incoming reads
  serves : d.thread.phase = .reading ∨ d.thread.phase = .processing → d.thread.Serves bufferSize
  conserves : d.Conserves channel

variable {d d' : Delivery σ} {s : σ} {reads : List ReadResult}

theorem thread_of_activity {activity : Activity σ} (h : d.serving.activity = activity) :
    d.thread = activity.thread d.left := by
  rw [Delivery.thread, h]

theorem Sound.start (s : σ) (reads : List ReadResult) :
    Sound services bufferSize channel s reads (start s reads) := by
  refine ⟨.refl, rfl, ?_, .inl rfl, ?_⟩
  · rintro (h | h) <;> cases h
  · exact fun _ _ h => nomatch h

/-- Where a thread goes on, all that it has written is taken. -/
theorem Sound.accepted_eq (h : Sound services bufferSize channel s reads d) {thread : WorkThread σ}
    (hactivity : d.serving.activity = .running thread) :
    d.thread = thread ∧ d.accepted = thread.written := by
  have hthread : d.thread = thread := thread_of_activity hactivity
  refine ⟨hthread, ?_⟩
  rcases h.conserves.output with hall | ⟨hreleased, -⟩
  · rw [hactivity, hthread] at hall
    simpa [Activity.unsent] using hall
  · rw [hactivity] at hreleased
    cases hreleased

/-- The thread goes on without a read, and has written what its loops are to write. -/
theorem Sound.advance (h : Sound services bufferSize channel s reads d) {thread : WorkThread σ}
    (hactivity : d.serving.activity = .running thread)
    (hgoesOn : WorkThread.GoesOn bufferSize thread (thread.advance services bufferSize)) :
    Sound services bufferSize channel s reads
      { d with serving := d.serving.advance services bufferSize thread, left := d.thread } := by
  obtain ⟨hthread, hwritten⟩ := h.accepted_eq hactivity
  have hruns := h.runs
  have hinput := h.input
  rw [hthread] at hruns hinput
  refine ⟨?_, ?_, ?_, ⟨.inl ?_, ?_⟩⟩
  · simp only [Delivery.thread, Serving.advance, Activity.thread_write]
    exact hruns.tail ⟨.advance, trivial, rfl⟩
  · simpa only [Delivery.thread, Serving.advance, Activity.thread_write,
      WorkThread.advance_received] using hinput
  · simpa only [Delivery.thread, Serving.advance, Activity.thread_write] using hgoesOn.serves
  · simp only [Delivery.thread, Serving.advance, Activity.thread_write, Activity.unsent_write,
      hwritten, WorkThread.written_advance]
  · rintro ⟨thrown, hreleased⟩
    exact absurd hreleased (Serving.write_ne_released _ _ thrown)

/-- The activation ends where the thread is not in the loop over the requests. -/
theorem Sound.release (h : Sound services bufferSize channel s reads d) {thread : WorkThread σ}
    (hactivity : d.serving.activity = .running thread) (hphase : thread.phase ≠ .processing)
    {activity : Activity σ} (hended : activity = .exited ∨ ∃ thrown, activity = .released thrown) :
    Sound services bufferSize channel s reads
      { d with serving := { d.serving with activity }, left := d.thread } := by
  obtain ⟨hthread, hwritten⟩ := h.accepted_eq hactivity
  have hall : d.accepted ++ [] = d.thread.written := by
    rw [List.append_nil, hthread]
    exact hwritten
  have hleft : d.thread.phase ≠ .processing := by
    rw [hthread]
    exact hphase
  rcases hended with rfl | ⟨thrown, rfl⟩
  all_goals exact ⟨h.runs, h.input, h.serves, .inl hall, fun _ _ => hleft⟩

/-- A read that brings no bytes leaves the thread where it is. -/
theorem Sound.nothing (h : Sound services bufferSize channel s reads d) {thread : WorkThread σ}
    (hactivity : d.serving.activity = .running thread) {left : List ReadResult}
    (hleft : ReadResult.incoming left = ReadResult.incoming d.serving.reads) :
    Sound services bufferSize channel s reads
      { d with serving := { d.serving with reads := left }, left := d.thread } := by
  obtain ⟨hthread, hwritten⟩ := h.accepted_eq hactivity
  have hruns := h.runs
  have hinput := h.input
  have hserves := h.serves
  rw [hthread] at hruns hinput hserves
  refine ⟨?_, ?_, ?_, ⟨.inl ?_, ?_⟩⟩
  · simpa only [Delivery.thread, hactivity, Activity.thread] using hruns
  · simpa only [Delivery.thread, hactivity, Activity.thread, hleft] using hinput
  · simpa only [Delivery.thread, hactivity, Activity.thread] using hserves
  · simp only [Delivery.thread, hactivity, Activity.thread, Activity.unsent, List.append_nil,
      hwritten]
  · rintro ⟨thrown, hreleased⟩
    rw [hactivity] at hreleased
    cases hreleased

/-- A thread that is about to read takes whatever there is, since its buffer is not full. -/
theorem nil_of_step_read {thread : WorkThread σ} {data : List UInt8}
    (hserves : thread.Serves bufferSize) (hphase : thread.phase = .reading)
    (hroom : thread.inputSize ≠ bufferSize)
    (hstep : thread.step services bufferSize
      (.read (data.take (bufferSize - thread.position))) = none) : data = [] := by
  simp only [WorkThread.step, ite_eq_right_iff, reduceCtorEq, imp_false, not_and] at hstep
  by_contra hne
  have hle := hserves.inputSize_le
  have hposition := hserves.position_eq
  have hlength := List.length_pos_of_ne_nil hne
  refine hstep ?_ ⟨hphase, hroom, ?_⟩
  · rw [← List.length_pos_iff, List.length_take]
    omega
  · rw [List.length_take]
    omega

/-- A read puts the next bytes into the input buffer, as many as there is room for. -/
theorem Sound.bytes (h : Sound services bufferSize channel s reads d)
    {thread next : WorkThread σ} (hactivity : d.serving.activity = .running thread)
    (hserves : thread.Serves bufferSize) {data : List UInt8} {rest : List ReadResult}
    (hreads : d.serving.reads = .bytes data :: rest)
    (hstep : thread.step services bufferSize
      (.read (data.take (bufferSize - thread.position))) = some next) :
    Sound services bufferSize channel s reads
      { d with
        serving := { d.serving with
          activity := .running next
          reads := if data.length ≤ bufferSize - thread.position then rest
            else .bytes (data.drop (bufferSize - thread.position)) :: rest }
        left := d.thread } := by
  obtain ⟨hthread, hwritten⟩ := h.accepted_eq hactivity
  have hruns := h.runs
  have hinput := h.input
  rw [hthread] at hruns hinput
  have hread := hruns.tail ⟨.read (data.take (bufferSize - thread.position)), trivial, hstep⟩
  simp only [WorkThread.step, Option.ite_none_right_eq_some, Option.some.injEq] at hstep
  obtain ⟨⟨-, -, -, hfits⟩, rfl⟩ := hstep
  refine ⟨hread, ?_, fun _ => ⟨hserves.inPtr_pos, ?_, ?_, fun _ => Int.le_refl 0⟩,
    ⟨.inl ?_, ?_⟩⟩
  · rw [hreads] at hinput
    rw [← hinput]
    simp only [Delivery.thread, Activity.thread]
    split_ifs with hall
    · rw [List.take_of_length_le hall, List.append_assoc]
      rfl
    · rw [List.append_assoc]
      congr 1
      simp only [ReadResult.incoming, List.flatMap_cons, ← List.append_assoc,
        List.take_append_drop]
  · simp only [Delivery.thread, Activity.thread, hserves.position_eq]
  · simp only [Delivery.thread, Activity.thread]
    have hposition := hserves.position_eq
    omega
  · simp only [Delivery.thread, Activity.thread, Activity.unsent, List.append_nil, hwritten]
  · rintro ⟨thrown, hreleased⟩
    cases hreleased

theorem Sound.read (h : Sound services bufferSize channel s reads d) {thread : WorkThread σ}
    (hactivity : d.serving.activity = .running thread) (hphase : thread.phase = .reading)
    (hroom : thread.inputSize ≠ bufferSize) :
    Sound services bufferSize channel s reads
      { d with serving := d.serving.read services bufferSize thread, left := d.thread } := by
  have hserves : thread.Serves bufferSize := by
    have hthread := (h.accepted_eq hactivity).1
    exact hthread ▸ h.serves (.inl (hthread ▸ hphase))
  have hended := h.release hactivity (by rw [hphase]; exact Phase.noConfusion)
    (.inr ⟨false, rfl⟩)
  cases hreads : d.serving.reads with
  | nil => simpa only [Serving.read, hreads] using hended
  | cons result rest =>
    cases result with
    | nothing =>
      simpa only [Serving.read, hreads] using h.nothing hactivity (by rw [hreads]; rfl)
    | timeout | endOfStream | ioException => simpa only [Serving.read, hreads] using hended
    | bytes data =>
      simp only [Serving.read, hreads]
      cases hstep : thread.step services bufferSize
          (.read (data.take (bufferSize - thread.position))) with
      | none =>
        have hnil := nil_of_step_read hserves hphase hroom hstep
        exact h.nothing hactivity (by rw [hreads, hnil]; rfl)
      | some next => exact h.bytes hactivity hserves hreads hstep

/-- An attempt to write takes some of the bytes, or is the end of the activation. -/
theorem Sound.attempt (h : Sound services bufferSize channel s reads d) {loop : WriteLoop}
    {remaining : List UInt8} {todo : List Output} {thread : WorkThread σ}
    (hactivity : d.serving.activity = .writing loop remaining todo thread) :
    Sound services bufferSize channel s reads (d.next services bufferSize channel) := by
  have hthread : d.thread = thread := thread_of_activity hactivity
  have hunsent : d.serving.activity.unsent = remaining ++ (todo.map Output.bytes).flatten := by
    rw [hactivity]
    rfl
  have hall : d.accepted ++ (remaining ++ (todo.map Output.bytes).flatten) = thread.written := by
    rcases h.conserves.output with hall | ⟨hreleased, -⟩
    · rwa [hunsent, hthread] at hall
    · rw [hactivity] at hreleased
      cases hreleased
  have hruns := h.runs
  have hinput := h.input
  have hserves := h.serves
  rw [hthread] at hruns hinput hserves
  have hsame {next : Delivery σ} (hnext : next.thread = thread)
      (hreads : next.serving.reads = d.serving.reads) (hconserves : next.Conserves channel) :
      Sound services bufferSize channel s reads next :=
    ⟨hnext ▸ hruns, by rw [hnext, hreads]; exact hinput, hnext ▸ hserves, hconserves⟩
  cases remaining with
  | nil =>
    have hstep : d.next services bufferSize channel =
        ⟨{ d.serving with activity := .write todo thread }, thread, d.accepted⟩ := by
      simp only [Delivery.next, Serving.step, Serving.taken, hactivity, hthread]
      cases channel.attempt d.serving.attempts <;> simp
    rw [hstep]
    refine hsame (Activity.thread_write ..) rfl ⟨.inl ?_, ?_⟩
    · simp only [Delivery.thread, Activity.thread_write, Activity.unsent_write]
      exact hall
    · rintro ⟨thrown, hreleased⟩
      exact absurd hreleased (Serving.write_ne_released _ _ thrown)
  | cons b remaining =>
    cases hattempt : channel.attempt d.serving.attempts with
    | accepts count =>
      simp only [Delivery.next, Serving.step, Serving.taken, hactivity, hattempt, hthread]
      refine hsame rfl rfl ⟨.inl ?_, ?_⟩
      · simp only [Delivery.thread, Activity.thread, Activity.unsent]
        rw [← hall, List.append_assoc, ← List.append_assoc (List.take _ _), List.take_append_drop]
      · rintro ⟨thrown, hreleased⟩
        cases hreleased
    | throws =>
      have hfailed : ∃ i < d.serving.attempts + 1, channel.attempt i = .throws :=
        ⟨_, Nat.lt_succ_self _, hattempt⟩
      cases hcatches : loop.catches with
      | true =>
        simp only [Delivery.next, Serving.step, Serving.taken, hactivity, hattempt, hthread,
          hcatches, if_true, List.append_nil]
        refine hsame rfl rfl ⟨.inl hall, ?_⟩
        rintro ⟨thrown, hreleased⟩
        cases hreleased
      | false =>
        simp only [Delivery.next, Serving.step, Serving.taken, hactivity, hattempt, hthread,
          hcatches, Bool.false_eq_true, if_false, List.append_nil]
        refine hsame rfl rfl ⟨.inr ⟨rfl, hfailed, ?_⟩, fun _ hnot => absurd hfailed hnot⟩
        rw [Delivery.thread, Activity.thread, ← hall]
        exact List.prefix_append _ _

theorem Sound.next (h : Sound services bufferSize channel s reads d) :
    Sound services bufferSize channel s reads (d.next services bufferSize channel) := by
  cases hactivity : d.serving.activity with
  | running thread =>
    have hthread := (h.accepted_eq hactivity).1
    have htaken : d.accepted ++ d.serving.taken channel = d.accepted := by
      simp only [Serving.taken, hactivity, List.append_nil]
    have hserves := h.serves
    rw [hthread] at hserves
    rw [Delivery.next, htaken]
    simp only [Serving.step, hactivity]
    cases hphase : thread.phase with
    | waiting | closed =>
      exact h.release hactivity (by rw [hphase]; exact Phase.noConfusion) (.inr ⟨false, rfl⟩)
    | dead =>
      exact h.release hactivity (by rw [hphase]; exact Phase.noConfusion) (.inr ⟨true, rfl⟩)
    | exited => exact h.release hactivity (by rw [hphase]; exact Phase.noConfusion) (.inl rfl)
    | processing =>
      exact h.advance hactivity (WorkThread.goesOn_round hphase (hserves (.inr hphase)))
    | reading =>
      by_cases hfull : thread.inputSize = bufferSize
      · simp only [hfull, if_true]
        exact h.advance hactivity (WorkThread.goesOn_full hphase hfull)
      · simp only [hfull, if_false]
        exact h.read hactivity hphase hfull
  | writing loop remaining todo thread => exact h.attempt hactivity
  | released thrown =>
    have hstay : d.next services bufferSize channel = d := by
      simp only [Delivery.next, Delivery.thread, Serving.step_of_released hactivity,
        Serving.taken, hactivity, Activity.thread, List.append_nil]
    rwa [hstay]
  | exited =>
    have hstay : d.next services bufferSize channel = d := by
      simp only [Delivery.next, Delivery.thread, Serving.step_of_exited hactivity,
        Serving.taken, hactivity, Activity.thread, List.append_nil]
    rwa [hstay]

/-- A worker takes the key of a connection that the last one has left open. -/
theorem Sound.activate (h : Sound services bufferSize channel s reads d) (memory : Memory)
    {inPtr : Int} (hptr : 0 < inPtr) (hreleased : d.serving.activity = .released false)
    (hphase : d.left.phase = .waiting) (hchannel : ¬ d.serving.Failed channel) :
    Sound services bufferSize channel s reads (d.activate memory inPtr) := by
  have hthread : d.thread = d.left := thread_of_activity hreleased
  have hruns := h.runs
  have hinput := h.input
  rw [hthread] at hruns hinput
  refine ⟨?_, hinput, fun _ => ⟨hptr, rfl, Nat.zero_le _, fun h => nomatch h⟩, ⟨.inl ?_, ?_⟩⟩
  · refine hruns.tail ⟨.activate memory inPtr, trivial, ?_⟩
    simp only [WorkThread.step, hphase, hptr, and_self, if_true]
    rfl
  · rcases h.conserves.output with hall | ⟨-, hfailed, -⟩
    · rwa [hreleased, hthread] at hall
    · exact absurd hfailed hchannel
  · rintro ⟨thrown, h⟩
    cases h

theorem sound_of_run
    (hrun : ReflTransGen (Step services bufferSize channel) (Delivery.start s reads) d) :
    Sound services bufferSize channel s reads d := by
  induction hrun with
  | refl => exact .start s reads
  | tail _ hstep ih =>
    cases hstep with
    | next => exact ih.next
    | activate memory hptr hreleased hphase hchannel =>
      exact ih.activate memory hptr hreleased hphase hchannel

theorem run_next (d : Delivery σ) (n : Nat) :
    ReflTransGen (Step services bufferSize channel) d
      ((next services bufferSize channel)^[n] d) := by
  induction n with
  | zero => exact .refl
  | succ n ih =>
    rw [Function.iterate_succ_apply']
    exact ih.tail (.next _)

/-- A channel that takes four bytes at a time, and none now and then. -/
def fourBytes : Channel where
  attempt i := .accepts (if i % 3 = 1 then 0 else 4)
  progresses i := by
    by_cases h : i % 3 = 1
    · exact ⟨i + 1, Nat.le_succ i, by simp; omega⟩
    · exact ⟨i, Nat.le_refl i, by simp [h]⟩
  keepsThrowing _ h := nomatch h

/-- A request that is read in pieces and answered in pieces. -/
theorem exists_delete :
    ∃ d : Delivery ListStore,
      ReflTransGen (Step listServices 64 fourBytes)
        (start {} [.bytes (ascii "del"), .nothing, .bytes (ascii "ete k\r\n")]) d ∧
      d.serving.activity = .released false ∧ d.serving.reads = [] ∧
      d.accepted = ascii "NOT_FOUND\r\n" := by
  let first : Delivery ListStore :=
    start {} [.bytes (ascii "del"), .nothing, .bytes (ascii "ete k\r\n")]
  have hchannel : ¬ first.serving.Failed fourBytes := by
    rintro ⟨i, hi, -⟩
    exact absurd hi (Nat.not_lt_zero i)
  have hactivate : Step listServices 64 fourBytes first (first.activate (fun _ => 0) 1) :=
    .activate first (fun _ => 0) (by decide) rfl rfl hchannel
  obtain ⟨last, hlast⟩ : ∃ last,
      last = (next listServices 64 fourBytes)^[13] (first.activate (fun _ => 0) 1) := ⟨_, rfl⟩
  have hreleased : last.serving.activity.isReleased = true := by
    rw [hlast]
    decide +kernel
  have hfacts : last.serving.reads = [] ∧ last.accepted = ascii "NOT_FOUND\r\n" := by
    rw [hlast]
    decide +kernel
  exact ⟨last, hlast ▸ (ReflTransGen.single hactivate).trans (run_next _ _),
    last.serving.activity.eq_released hreleased, hfacts⟩

section Requests

variable {replyPtr : Int} {requests : List (Request services.utils)} {result : List UInt8 × σ}

/-- The requests of a connection are answered over any channel: what it has taken is the beginning
of the replies, and as long as no write has thrown, whenever the activation is over or its thread is
to read again, it is the replies to all requests that were received as a whole. -/
theorem delivered (hserved : WorkThread.Served services bufferSize replyPtr requests s result)
    (hreads : ReadResult.incoming reads = (protocol services bufferSize replyPtr).stream requests)
    (hrun : ReflTransGen (Step services bufferSize channel) (Delivery.start s reads) d) :
    d.accepted <+: result.1 ∧
    (d.serving.activity.Rests → ¬ d.serving.Failed channel →
      ∃ served todo rest store, requests = served ++ todo ∧
        ReadResult.incoming reads = (protocol services bufferSize replyPtr).stream served ++ rest ++
          ReadResult.incoming d.serving.reads ∧
        WorkThread.Unfinished todo rest ∧
        (protocol services bufferSize replyPtr).serveAll served s = some (d.accepted, store) ∧
        (ReadResult.incoming d.serving.reads = [] → todo = [])) := by
  have hsound := sound_of_run hrun
  have hreceived : d.thread.received <+: (protocol services bufferSize replyPtr).stream requests :=
    ⟨_, hsound.input.trans hreads⟩
  obtain ⟨t, hsession, hrep⟩ := WorkThread.exists_session hserved hsound.runs hreceived
  have hmatches := Session.sound_of_run hsession
  have hserves := hmatches.served
  rw [← hrep.written] at hserves
  have hwritten := Protocol.prefix_of_serveAll _ hrep.served hserves hserved.replies
  refine ⟨?_, fun hrests hnot => ?_⟩
  · rcases hsound.conserves.output with hall | ⟨-, -, hfront⟩
    · exact (hall ▸ List.prefix_append _ _ : d.accepted <+: d.thread.written).trans hwritten
    · exact hfront.trans hwritten
  · have haccepted : d.accepted = d.thread.written := by
      rcases hsound.conserves.output with hall | ⟨-, hfailed, -⟩
      · rwa [hrests.unsent_eq, List.append_nil] at hall
      · exact absurd hfailed hnot
    have hphase : d.thread.phase ≠ .processing := by
      cases hactivity : d.serving.activity with
      | released thrown => exact hsound.conserves.ended ⟨thrown, hactivity⟩ hnot
      | running thread =>
        rw [hactivity] at hrests
        rw [(hsound.accepted_eq hactivity).1, hrests]
        exact Phase.noConfusion
      | writing | exited =>
        rw [hactivity] at hrests
        cases hrests
    obtain ⟨todo, htodo⟩ := hrep.served
    refine ⟨t.served, todo, t.input, t.store, htodo.symm, ?_, ?_, haccepted ▸ hserves,
      fun hempty => ?_⟩
    · rw [← hsound.input, hrep.received, hmatches.received]
    · exact (hrep.cutOff hphase).unfinished htodo
    · have hall : d.thread.received = (protocol services bufferSize replyPtr).stream requests := by
        rw [← hreads, ← hsound.input, hempty, List.append_nil]
      obtain ⟨-, hdone⟩ := hrep.served_eq hmatches hphase hall
      rw [hdone] at htodo
      simpa using htodo

theorem delivered_delete :
    let request : Request listServices.utils :=
      .delete { key := ⟨ascii "k", by decide⟩, gap := none }
    ∃ d : Delivery ListStore, d.serving.activity.Rests ∧ d.serving.reads = [] ∧
      d.accepted = ascii "NOT_FOUND\r\n" ∧ d.accepted <+: ascii "NOT_FOUND\r\n" ∧
      (d.serving.activity.Rests → ¬ d.serving.Failed fourBytes →
        ∃ served todo rest store, [request] = served ++ todo ∧
          ascii "delete k\r\n" = (protocol listServices 64 1).stream served ++ rest ++
            ReadResult.incoming d.serving.reads ∧
          WorkThread.Unfinished todo rest ∧
          (protocol listServices 64 1).serveAll served {} = some (d.accepted, store) ∧
          (ReadResult.incoming d.serving.reads = [] → todo = [])) := by
  intro request
  have hserved : WorkThread.Served listServices 64 1 [request] {}
      (ascii "NOT_FOUND\r\n", {}) :=
    ⟨by decide, by decide, by simp [request, Request.SingleSpaced], by decide +kernel,
      by decide +kernel⟩
  obtain ⟨d, hrun, hreleased, hreads, haccepted⟩ := exists_delete
  have hrests : d.serving.activity.Rests := by rw [hreleased]; trivial
  exact ⟨d, hrests, hreads, haccepted, delivered hserved (by decide +kernel) hrun⟩

end Requests

end Delivery

end Memcarrot
