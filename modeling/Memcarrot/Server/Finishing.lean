import Memcarrot.Server.Releases
import Memcarrot.Server.RequestHandlers
import Memcarrot.Server.WriteLoops
import Memcarrot.Transition.Progress

open RawMemory Transition

namespace Memcarrot

namespace WorkThread

variable {σ : Type} {services : Services σ} {bufferSize : Nat} {st : WorkThread σ}

/-- The bounds of the outer loop. -/
structure Serves (bufferSize : Nat) (st : WorkThread σ) : Prop where
  inPtr_pos : 0 < st.inPtr
  position_eq : st.position = st.inputSize
  inputSize_le : st.inputSize ≤ bufferSize
  consumed_nonneg : st.phase = .processing → 0 ≤ st.consumed

/-- What is left of the loop over the requests. -/
def rounds (st : WorkThread σ) : Nat :=
  match st.phase with
  | .processing => (st.inputSize - st.consumed).toNat + 2
  | .reading => 1
  | _ => 0

/-- The thread goes on in the outer loop as it should, with less to do, or leaves it. -/
structure GoesOn (bufferSize : Nat) (st next : WorkThread σ) : Prop where
  serves : next.phase = .reading ∨ next.phase = .processing → next.Serves bufferSize
  rounds_lt : next.rounds < st.rounds

theorem GoesOn.of_left {next : WorkThread σ} (hpos : 0 < st.rounds)
    (h : next.phase ≠ .reading ∧ next.phase ≠ .processing) : GoesOn bufferSize st next := by
  refine ⟨fun hphase => absurd hphase (not_or.mpr h), ?_⟩
  unfold rounds
  cases hphase : next.phase with
  | reading => exact absurd hphase h.1
  | processing => exact absurd hphase h.2
  | waiting | closed | dead | exited => exact hpos

theorem outputTooLarge_left (bufferSize : Nat) (st : WorkThread σ) :
    (st.outputTooLarge bufferSize).phase ≠ .reading ∧
      (st.outputTooLarge bufferSize).phase ≠ .processing := by
  unfold outputTooLarge
  split_ifs
  all_goals exact ⟨Phase.noConfusion, Phase.noConfusion⟩

/-- The answer to a full input buffer ends the outer loop. -/
theorem goesOn_full (hphase : st.phase = .reading) (hfull : st.inputSize = bufferSize) :
    GoesOn bufferSize st (st.advance services bufferSize) := by
  refine .of_left (by simp [rounds, hphase]) ?_
  simp only [advance, hphase, hfull, if_true]
  unfold inputTooLarge
  split_ifs
  · exact ⟨Phase.noConfusion, Phase.noConfusion⟩
  · exact outputTooLarge_left bufferSize st

theorem goesOn_compact (st : WorkThread σ) (hphase : st.phase = .processing) (hst : st.Bounded)
    (hle : st.inputSize ≤ bufferSize) : GoesOn bufferSize st st.compact := by
  obtain ⟨hunconsumed, hreading, hposition, hcompact⟩ := compact_spec hphase hst
  have hlength := length_unconsumed hphase hst
  have hnonneg := hst.consumed_nonneg
  have hsize : st.compact.inputSize = st.unconsumed.length := by
    rw [← hunconsumed, unconsumed, hreading]
    simp only [Memory.length_slice]
  refine ⟨fun _ => ⟨?_, hposition, by omega, fun hprocessing => ?_⟩, ?_⟩
  · rw [hcompact]
    exact hst.inPtr_pos
  · rw [hreading] at hprocessing
    cases hprocessing
  · simp only [rounds, hreading, hphase]
    omega

theorem goesOn_respond (st : WorkThread σ) (hphase : st.phase = .processing)
    (h : st.Serves bufferSize) (hmore : st.consumed < st.inputSize)
    {lastCommand : Option MemcachedCommand}
    (hpos : ∀ cmd, lastCommand = some cmd → 0 < cmd.inputConsumed) (bytes : List UInt8) :
    GoesOn bufferSize st (st.respond bufferSize bytes lastCommand) := by
  have hrounds : 0 < st.rounds := by simp [rounds, hphase]
  by_cases hfits : bytes.length ≤ bufferSize
  · rcases st.respond_of_fits hfits lastCommand with hclosed | ⟨cmd, hlast, hrespond⟩
    · refine .of_left hrounds ?_
      rw [hclosed]
      exact ⟨Phase.noConfusion, Phase.noConfusion⟩
    · have hconsumed := hpos cmd hlast
      have hnonneg := h.consumed_nonneg hphase
      rw [hrespond]
      refine ⟨fun _ => ⟨h.inPtr_pos, h.position_eq, h.inputSize_le, fun _ => ?_⟩, ?_⟩
      · simp only
        omega
      · simp only [rounds, hphase]
        omega
  · refine .of_left hrounds ?_
    simp only [respond, gt_iff_lt, Nat.not_le.mp hfits, if_true]
    exact ⟨Phase.noConfusion, Phase.noConfusion⟩

/-- A round passes over a request, or ends the loop over them. -/
theorem goesOn_round (hphase : st.phase = .processing) (h : st.Serves bufferSize) :
    GoesOn bufferSize st (st.advance services bufferSize) := by
  have hrounds : 0 < st.rounds := by simp [rounds, hphase]
  simp only [advance, hphase]
  by_cases hmore : st.consumed < st.inputSize
  · have hst : st.Bounded :=
      ⟨h.inPtr_pos, h.position_eq, h.consumed_nonneg hphase, Int.le_of_lt hmore⟩
    have hne : st.unconsumed ≠ [] := by
      intro hnil
      have hlength := length_unconsumed hphase hst
      rw [hnil, List.length_nil] at hlength
      omega
    have hround := round_of_ne_nil services bufferSize hphase hst hne
    cases hresult : (st.processed services bufferSize).result <;> simp only [hresult] at hround <;>
      rw [hround]
    case incomplete =>
      have hcompact := goesOn_compact (st.afterProcess services bufferSize) hphase
        ⟨hst.inPtr_pos, hst.position_eq, hst.consumed_nonneg, hst.consumed_le⟩ h.inputSize_le
      exact ⟨hcompact.serves, hcompact.rounds_lt⟩
    case response bytes =>
      have hpos (cmd : MemcachedCommand)
          (hlast : (st.processed services bufferSize).lastCommand = some cmd) :
          0 < cmd.inputConsumed := (inputConsumed_processed hphase hst hlast).1
      have hrespond := goesOn_respond (st.afterProcess services bufferSize) hphase
        ⟨h.inPtr_pos, h.position_eq, h.inputSize_le, h.consumed_nonneg⟩ hmore hpos bytes
      exact ⟨hrespond.serves, hrespond.rounds_lt⟩
    case bufferOverflow => exact .of_left hrounds (outputTooLarge_left ..)
    case exit | uncaught => exact .of_left hrounds ⟨Phase.noConfusion, Phase.noConfusion⟩
  · rw [round, if_neg hmore]
    exact .of_left hrounds ⟨Phase.noConfusion, Phase.noConfusion⟩

theorem written_outputTooLarge (bufferSize : Nat) (st : WorkThread σ) :
    (st.outputTooLarge bufferSize).written =
      st.written ++ ((tooLargeOutputs bufferSize).map Output.bytes).flatten := by
  unfold outputTooLarge tooLargeOutputs
  split_ifs
  · simp
  · simp

theorem written_respond (bytes : List UInt8) (lastCommand : Option MemcachedCommand)
    (st : WorkThread σ) : (st.respond bufferSize bytes lastCommand).written =
      if bytes.length > bufferSize then st.written else st.written ++ bytes := by
  unfold respond
  split_ifs
  · rfl
  · cases lastCommand with
    | none => rfl
    | some cmd =>
      simp only
      split_ifs <;> rfl

/-- The loops write what is written between two reads of the channel. -/
theorem written_advance (services : Services σ) (bufferSize : Nat) (st : WorkThread σ) :
    (st.advance services bufferSize).written =
      st.written ++ ((st.outputs services bufferSize).map Output.bytes).flatten := by
  have hchunks (chunks : List (List UInt8)) :
      (chunks.map (Output.mk .consume)).map Output.bytes = chunks := by
    rw [List.map_map]
    exact List.map_id chunks
  unfold advance outputs
  cases st.phase with
  | processing =>
    simp only [round]
    split_ifs with hmore
    · cases hresult : (CommandProcessor.process services st.memory (st.inPtr + st.consumed)
          (st.inputSize - st.consumed) bufferSize st.store).result <;>
        simp only [List.map_append, List.flatten_append, hchunks]
      case incomplete =>
        simp only [compact, List.map_nil, List.flatten_nil, List.append_nil]
        split_ifs <;> rfl
      case response bytes =>
        rw [written_respond]
        split_ifs <;> simp
      case bufferOverflow => rw [written_outputTooLarge, List.append_assoc]
      case exit | uncaught => simp
    · simp
  | reading =>
    simp only
    split_ifs with hfull hfits
    · simp [inputTooLarge, hfits]
    · rw [inputTooLarge, if_neg hfits, written_outputTooLarge]
    · simp
  | waiting | closed | dead | exited => simp

end WorkThread

namespace Serving

open WorkThread

variable {σ : Type}

/-- The finally block has been passed, or the process has ended. -/
def Ended (s : Serving σ) : Prop := ∃ thrown, s.activity = .released thrown ∨ s.activity = .exited

/-- The worker waits for the next key, or the process has ended. -/
def Available (s : Serving σ) : Prop := s.activity = .released false ∨ s.activity = .exited

/-- An exception that `run` does not catch was thrown in the outer loop. -/
def Thrown (s : Serving σ) : Prop := ∃ thread, s.activity = .running thread ∧ thread.phase = .dead

/-- Bytes of OUTPUT_TOO_LARGE are left to write. -/
def sendsTooLarge (s : Serving σ) : Bool :=
  match s.activity with
  | .writing .outputTooLarge (_ :: _) _ _ => true
  | _ => false

/-- The next write throws while bytes of OUTPUT_TOO_LARGE are left. -/
def Swallows (channel : Channel) (s : Serving σ) : Prop :=
  s.sendsTooLarge = true ∧ channel.attempt s.attempts = .throws

section Stuck

variable {services : Services σ} {bufferSize : Nat} {channel : Channel} {s : Serving σ}

theorem step_of_released {thrown : Bool} (h : s.activity = .released thrown) :
    s.step services bufferSize channel = s := by
  unfold Serving.step
  rw [h]

theorem step_of_exited (h : s.activity = .exited) : s.step services bufferSize channel = s := by
  unfold Serving.step
  rw [h]

theorem Available.step (h : s.Available) : (s.step services bufferSize channel).Available := by
  rcases h with hreleased | hexited
  · rw [step_of_released hreleased]
    exact .inl hreleased
  · rw [step_of_exited hexited]
    exact .inr hexited

theorem Thrown.step (h : s.Thrown) :
    (s.step services bufferSize channel).activity = .released true := by
  obtain ⟨thread, hactivity, hdead⟩ := h
  unfold Serving.step
  simp only [hactivity, hdead]

theorem write_ne_released (todo : List Output) (next : WorkThread σ) (thrown : Bool) :
    Activity.write todo next ≠ .released thrown := by
  cases todo with
  | nil => exact fun h => nomatch h
  | cons output todo => exact fun h => nomatch h

theorem read_ne_released {thread : WorkThread σ} (h : s.activity = .running thread) :
    (s.read services bufferSize thread).activity ≠ .released true := by
  unfold Serving.read
  split
  · simp [h]
  · simp only
    split
    · simp
    · simp [h]
  · simp

/-- The key is released by an exception only where one was thrown. -/
theorem thrown_of_step (h : (s.step services bufferSize channel).activity = .released true) :
    s.activity = .released true ∨ s.Thrown := by
  cases hactivity : s.activity with
  | running thread =>
    cases hphase : thread.phase <;> simp only [Serving.step, hactivity, hphase] at h
    case dead => exact .inr ⟨thread, hactivity, hphase⟩
    case processing => exact absurd h (write_ne_released _ _ true)
    case reading =>
      split_ifs at h
      · exact absurd h (write_ne_released _ _ true)
      · exact absurd h (read_ne_released hactivity)
    all_goals cases h
  | writing loop remaining todo next =>
    cases remaining with
    | nil =>
      simp only [Serving.step, hactivity] at h
      exact absurd h (write_ne_released _ _ true)
    | cons b remaining =>
      simp only [Serving.step, hactivity] at h
      cases hattempt : channel.attempt s.attempts with
      | accepts count =>
        simp only [hattempt] at h
        cases h
      | throws =>
        cases hcatches : loop.catches with
        | true =>
          simp only [hattempt, hcatches, if_true] at h
          cases h
        | false =>
          simp only [hattempt, hcatches] at h
          cases h
  | released thrown =>
    rw [step_of_released hactivity, hactivity] at h
    exact .inl h
  | exited =>
    rw [step_of_exited hactivity, hactivity] at h
    cases h

theorem not_released_of_avoids (hstart : s.activity ≠ .released true)
    (h : Avoids (step services bufferSize channel) Thrown s) (n : Nat) :
    ((step services bufferSize channel)^[n] s).activity ≠ .released true := by
  induction n with
  | zero => exact hstart
  | succ n ih =>
    rw [Function.iterate_succ_apply']
    intro hreleased
    exact (thrown_of_step hreleased).elim ih (h n)

theorem Available.ended (h : s.Available) : s.Ended := ⟨false, h⟩

theorem Available.not_released (h : s.Available) : s.activity ≠ .released true := by
  rcases h with h | h
  all_goals
    rw [h]
    exact fun h => nomatch h

theorem Ended.step (h : s.Ended) : (s.step services bufferSize channel).Ended := by
  obtain ⟨thrown, hreleased | hexited⟩ := h
  · rw [step_of_released hreleased]
    exact ⟨thrown, .inl hreleased⟩
  · rw [step_of_exited hexited]
    exact ⟨thrown, .inr hexited⟩

theorem activity_of_sendsTooLarge (h : s.sendsTooLarge = true) :
    ∃ b remaining todo next, s.activity = .writing .outputTooLarge (b :: remaining) todo next := by
  unfold sendsTooLarge at h
  split at h
  · exact ⟨_, _, _, _, ‹_›⟩
  · cases h

/-- The exception is swallowed again in every further attempt. -/
theorem Swallows.step (h : s.Swallows channel) :
    (s.step services bufferSize channel).Swallows channel := by
  obtain ⟨hsends, hthrows⟩ := h
  obtain ⟨b, remaining, todo, next, hactivity⟩ := activity_of_sendsTooLarge hsends
  have hstep : s.step services bufferSize channel = { s with attempts := s.attempts + 1 } := by
    unfold Serving.step
    simp only [hactivity, hthrows]
    rfl
  rw [hstep]
  exact ⟨hsends, channel.keepsThrowing _ hthrows⟩

theorem Swallows.not_ended (h : s.Swallows channel) : ¬ s.Ended := by
  obtain ⟨b, remaining, todo, next, hactivity⟩ := activity_of_sendsTooLarge h.1
  rintro ⟨thrown, h | h⟩
  all_goals
    rw [hactivity] at h
    cases h

end Stuck

section Loops

variable {services : Services σ} {bufferSize : Nat} {channel : Channel} {loop : WriteLoop}
  {remaining : List UInt8} {todo : List Output} {next thread : WorkThread σ} {attempts : Nat}
  {reads : List ReadResult}

/-- One attempt of a loop that writes. -/
theorem ends_attempt {b : UInt8}
    (hless : ∀ count attempts,
      Avoids (step services bufferSize channel) (Swallows channel)
          ⟨.writing loop ((b :: remaining).drop (count + 1)) todo next, attempts, reads⟩ →
        Reaches (step services bufferSize channel) Ended
          ⟨.writing loop ((b :: remaining).drop (count + 1)) todo next, attempts, reads⟩)
    (hzero : channel.attempt attempts = .accepts 0 →
      Avoids (step services bufferSize channel) (Swallows channel)
          ⟨.writing loop (b :: remaining) todo next, attempts + 1, reads⟩ →
        Reaches (step services bufferSize channel) Ended
          ⟨.writing loop (b :: remaining) todo next, attempts + 1, reads⟩)
    (hclean : Avoids (step services bufferSize channel) (Swallows channel)
      ⟨.writing loop (b :: remaining) todo next, attempts, reads⟩) :
    Reaches (step services bufferSize channel) Ended
      ⟨.writing loop (b :: remaining) todo next, attempts, reads⟩ := by
  have hlater := hclean.later
  refine .of_next ?_
  simp only [step] at hlater ⊢
  cases hattempt : channel.attempt attempts with
  | accepts count =>
    simp only [hattempt] at hlater ⊢
    cases count with
    | zero => exact hzero hattempt hlater
    | succ count => exact hless count _ hlater
  | throws =>
    cases loop with
    | consume | reply | inputTooLarge => exact .now ⟨false, .inl rfl⟩
    | outputTooLarge => exact absurd ⟨rfl, hattempt⟩ hclean.now

/-- A loop that writes ends, unless it swallows an exception: an attempt takes bytes, or the next
one that does is nearer. -/
theorem ends_writing
    (hthen : ∀ attempts,
      Avoids (step services bufferSize channel) (Swallows channel)
          ⟨.write todo next, attempts, reads⟩ →
        Reaches (step services bufferSize channel) Ended ⟨.write todo next, attempts, reads⟩)
    (hclean : Avoids (step services bufferSize channel) (Swallows channel)
      ⟨.writing loop remaining todo next, attempts, reads⟩) :
    Reaches (step services bufferSize channel) Ended
      ⟨.writing loop remaining todo next, attempts, reads⟩ := by
  induction hlength : remaining.length using Nat.strong_induction_on
    generalizing remaining attempts with
  | _ length ih =>
    cases remaining with
    | nil => exact .of_next (hthen attempts hclean.later)
    | cons b remaining =>
      have hless (count attempts : Nat) := @ih ((b :: remaining).drop (count + 1)).length
        (by simp only [← hlength, List.length_drop, List.length_cons]; omega)
        ((b :: remaining).drop (count + 1)) attempts
      obtain ⟨j, hle, hprogress⟩ := channel.progresses attempts
      obtain ⟨k, rfl⟩ := Nat.exists_eq_add_of_le hle
      clear hle
      induction k generalizing attempts with
      | zero =>
        exact ends_attempt (fun count attempts h => hless count attempts h rfl)
          (fun h => absurd h hprogress) hclean
      | succ k ihAttempts =>
        refine ends_attempt (fun count attempts h => hless count attempts h rfl)
          (fun _ hclean => ihAttempts hclean ?_) hclean
        rwa [Nat.add_assoc, Nat.add_comm 1 k]

theorem ends_outputs
    (hrun : ∀ attempts,
      Avoids (step services bufferSize channel) (Swallows channel)
          ⟨.running next, attempts, reads⟩ →
        Reaches (step services bufferSize channel) Ended ⟨.running next, attempts, reads⟩)
    (hclean : Avoids (step services bufferSize channel) (Swallows channel)
      ⟨.write todo next, attempts, reads⟩) :
    Reaches (step services bufferSize channel) Ended ⟨.write todo next, attempts, reads⟩ := by
  induction todo generalizing attempts with
  | nil => exact hrun attempts hclean
  | cons output todo ih => exact ends_writing (fun _ => ih) hclean

/-- The reads that are left, and what is left of their bytes. -/
def pending : List ReadResult → Nat
  | [] => 0
  | .bytes bytes :: reads => bytes.length + 1 + pending reads
  | _ :: reads => 1 + pending reads

/-- A read ends the activation, or leaves less to read. -/
theorem read_cases (hserves : thread.Serves bufferSize) :
    (∃ thread' reads', read services bufferSize thread ⟨.running thread, attempts, reads⟩ =
        ⟨.running thread', attempts, reads'⟩ ∧ thread'.Serves bufferSize ∧
          pending reads' < pending reads) ∨
      read services bufferSize thread ⟨.running thread, attempts, reads⟩ =
        ⟨.released false, attempts, reads⟩ := by
  cases reads with
  | nil => exact .inr rfl
  | cons result reads =>
    cases result with
    | nothing => exact .inl ⟨thread, reads, rfl, hserves, by simp [pending]⟩
    | timeout | endOfStream | ioException => exact .inr rfl
    | bytes bytes =>
      left
      cases hstep : thread.step services bufferSize
          (.read (bytes.take (bufferSize - thread.position))) with
      | none =>
        exact ⟨thread, reads, by simp only [read, hstep], hserves, by simp [pending]⟩
      | some thread' =>
        refine ⟨thread', if bytes.length ≤ bufferSize - thread.position then reads
          else .bytes (bytes.drop (bufferSize - thread.position)) :: reads,
          by simp only [read, hstep], ?_⟩
        simp only [WorkThread.step, Option.ite_none_right_eq_some, Option.some.injEq] at hstep
        obtain ⟨⟨hne, -, -, hroom⟩, rfl⟩ := hstep
        have hposition := hserves.position_eq
        refine ⟨⟨hserves.inPtr_pos, ?_, ?_, fun _ => Int.le_refl 0⟩, ?_⟩
        · simp only [hposition]
        · simp only
          omega
        · have htaken := List.length_pos_of_ne_nil hne
          rw [List.length_take] at htaken
          split_ifs with hall
          · simp [pending]
          · simp only [pending, List.length_drop]
            omega

theorem ends_running (hserves : thread.phase = .reading ∨ thread.phase = .processing →
      thread.Serves bufferSize)
    (hclean : Avoids (step services bufferSize channel) (Swallows channel)
      ⟨.running thread, attempts, reads⟩) :
    Reaches (step services bufferSize channel) Ended ⟨.running thread, attempts, reads⟩ := by
  induction hpending : pending reads using Nat.strong_induction_on
    generalizing thread attempts reads with
  | _ count ihReads =>
    induction hrounds : thread.rounds using Nat.strong_induction_on
      generalizing thread attempts with
    | _ rounds ihRounds =>
      have hadvance (hgoesOn : GoesOn bufferSize thread (thread.advance services bufferSize))
          (hstep : step services bufferSize channel ⟨.running thread, attempts, reads⟩ =
            advance services bufferSize thread ⟨.running thread, attempts, reads⟩) :
          Reaches (step services bufferSize channel) Ended ⟨.running thread, attempts, reads⟩ := by
        have hlater := hclean.later
        refine .of_next ?_
        rw [hstep] at hlater ⊢
        exact ends_outputs (fun attempts hclean => ihRounds _ (hrounds ▸ hgoesOn.rounds_lt)
          hgoesOn.serves hclean rfl) hlater
      cases hphase : thread.phase with
      | waiting | closed =>
        refine .of_next (.now ?_)
        simp only [step, hphase]
        exact ⟨false, .inl rfl⟩
      | dead =>
        refine .of_next (.now ?_)
        simp only [step, hphase]
        exact ⟨true, .inl rfl⟩
      | exited =>
        refine .of_next (.now ?_)
        simp only [step, hphase]
        exact ⟨false, .inr rfl⟩
      | processing =>
        exact hadvance (goesOn_round hphase (hserves (.inr hphase))) (by simp only [step, hphase])
      | reading =>
        by_cases hfull : thread.inputSize = bufferSize
        · exact hadvance (goesOn_full hphase hfull) (by simp only [step, hphase, hfull, if_true])
        · have hlater := hclean.later
          refine .of_next ?_
          simp only [step, hphase, hfull, if_false] at hlater ⊢
          rcases read_cases (hserves (.inl hphase)) with
            ⟨thread', reads', hread, hserves', hless⟩ | hread
          · rw [hread] at hlater ⊢
            exact ihReads _ (hpending ▸ hless) (fun _ => hserves') hlater rfl
          · rw [hread]
            exact .now ⟨false, .inl rfl⟩

end Loops

/-- An activation comes to its end unless a write throws while OUTPUT_TOO_LARGE is sent. Its worker
is then free again unless an exception that `run` does not catch has ended it. -/
theorem ended_iff {σ : Type} (services : Services σ) (bufferSize : Nat) (channel : Channel)
    (memory : Memory) {inPtr : Int} (hptr : 0 < inPtr) (store : σ) (reads : List ReadResult) :
    (Reaches (step services bufferSize channel) Ended (start memory inPtr store reads) ↔
      Avoids (step services bufferSize channel) (Swallows channel)
        (start memory inPtr store reads)) ∧
    (Reaches (step services bufferSize channel) Available (start memory inPtr store reads) ↔
      Avoids (step services bufferSize channel) (Swallows channel)
          (start memory inPtr store reads) ∧
        Avoids (step services bufferSize channel) Thrown (start memory inPtr store reads)) := by
  have hended : Reaches (step services bufferSize channel) Ended (start memory inPtr store reads) ↔
      Avoids (step services bufferSize channel) (Swallows channel)
        (start memory inPtr store reads) := by
    refine ⟨Reaches.avoids (fun s => Ended.step) (fun s => Swallows.step)
      fun s hended hswallows => hswallows.not_ended hended, ends_running fun _ => ?_⟩
    exact ⟨hptr, rfl, Nat.zero_le _, fun h => nomatch h⟩
  refine ⟨hended, ?_⟩
  rw [← hended]
  constructor
  · rintro ⟨n, hn⟩
    have hreleased : Avoids (step services bufferSize channel)
        (fun s => s.activity = .released true) (start memory inPtr store reads) :=
      Reaches.avoids (P := Available) (fun s => Available.step)
        (fun s hs => by rwa [step_of_released hs]) (fun s => Available.not_released) ⟨n, hn⟩
    refine ⟨⟨n, hn.ended⟩, fun k hthrown => hreleased (k + 1) ?_⟩
    rw [Function.iterate_succ_apply']
    exact hthrown.step
  · rintro ⟨⟨n, thrown, hn⟩, hthrown⟩
    have hreleased := not_released_of_avoids (by simp [start]) hthrown n
    cases thrown with
    | false => exact ⟨n, hn⟩
    | true => exact ⟨n, .inr (hn.resolve_left hreleased)⟩

/-- A channel that takes all that is written to it. -/
def takesAll : Channel where
  attempt _ := .accepts 65536
  progresses i := ⟨i, Nat.le_refl i, by decide⟩
  keepsThrowing _ h := nomatch h

/-- A channel on which every write throws. -/
def broken : Channel where
  attempt _ := .throws
  progresses i := ⟨i, Nat.le_refl i, by decide⟩
  keepsThrowing _ _ := rfl

/-- A version request is answered. -/
theorem ended_version : (0 : Int) < 100 ∧
    Avoids (step listServices 128 takesAll) (Swallows takesAll)
      (start (fun _ => 0) 100 {} [.bytes (ascii "version\r\n")]) :=
  ⟨by decide, (ended_iff listServices 128 takesAll (fun _ => 0) (by decide) {} _).1.mp
    ⟨7, false, .inl rfl⟩⟩

/-- A record that cannot be returned, on a channel that is broken. -/
theorem not_ended_broken :
    ¬ ∀ (services : Services ListStore) (bufferSize : Nat) (channel : Channel) (memory : Memory)
      (inPtr : Int) (store : ListStore) (reads : List ReadResult), 0 < inPtr →
      Reaches (step services bufferSize channel) Ended (start memory inPtr store reads) := by
  intro h
  let store : ListStore := ListStore.put (ascii "k") (List.replicate 120 0x78) 0 {}
  have hended := h listServices 128 broken (fun _ => 0) 100 store [.bytes (ascii "get k\r\n")]
    (by decide)
  have hswallows : Swallows broken ((step listServices 128 broken)^[2]
      (start (fun _ => 0) 100 store [.bytes (ascii "get k\r\n")])) := by
    exact ⟨by decide +kernel, rfl⟩
  exact Reaches.avoids (fun s => Ended.step) (fun s => Swallows.step)
    (fun s hended hswallows => hswallows.not_ended hended) hended 2 hswallows

end Serving

end Memcarrot
