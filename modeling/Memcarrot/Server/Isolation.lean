import Memcarrot.Parsing.Consumption
import Memcarrot.Parsing.MemorySafety
import Memcarrot.Parsing.Reads
import Memcarrot.Server.Rounds
import Memcarrot.Support.ListStore
import Memcarrot.Transition.Runs
import Memcarrot.Wire.Operations

open Incremental RawMemory

namespace Memcarrot

namespace Wire

/-- What is not a request holds no addresses. -/
theorem Irregular.move_eq {bytes : List UInt8} {cmd : MemcachedCommand} (h : Irregular bytes cmd)
    (shift : Int) : cmd.move shift = cmd := by
  cases h with
  | get cls rest hcls => rcases hcls with rfl | rfl <;> rfl
  | twoBytes cls space first second hcls _ _ => rcases hcls with rfl | rfl | rfl <;> rfl
  | flushAll | flushWord | stats => rfl

/-- What is not a request is executed without a look at the memory. -/
theorem Irregular.operation_eq {bytes : List UInt8} {cmd : MemcachedCommand}
    (h : Irregular bytes cmd) (m m' : Memory) : cmd.operation m' = cmd.operation m := by
  cases h with
  | get cls rest hcls => rcases hcls with rfl | rfl <;> rfl
  | twoBytes cls space first second hcls _ _ => rcases hcls with rfl | rfl | rfl <;> rfl
  | flushAll | flushWord | stats => rfl

end Wire

namespace Parsing

variable {U : CacheUtils} {m m' : Memory} {buf buf' : Int} {size size' : Nat}

/-- A command and the same one for the same bytes elsewhere, with more behind them, ask for the
same. -/
theorem operation_move {cmd : MemcachedCommand} {tail : List UInt8}
    (h : m'.slice buf' size' = m.slice buf size ++ tail)
    (hparse : (CommandParser.parse U buf size).run m = .done cmd)
    (hparse' : (CommandParser.parse U buf' size').run m' = .done (cmd.move (buf' - buf))) :
    (cmd.move (buf' - buf)).operation m' = cmd.operation m := by
  rcases parse_run_eq_done_iff.mp hparse with ⟨r, rest, hrest, rfl⟩ | hirregular
  · have hfront : m.slice buf size = r.bytes ++ rest := hrest
    have hrest' : m'.slice buf' size' = r.bytes ++ (rest ++ tail) := by
      rw [h, hfront, List.append_assoc]
    rw [Refinement.parse_run, hrest', r.parse_eq] at hparse'
    rw [← Verdict.done.inj hparse', r.operation_command hrest', r.operation_command hrest]
  · rw [hirregular.move_eq]
    exact hirregular.operation_eq m m'

end Parsing

namespace CommandProcessor

variable {σ : Type} {services : Services σ} {m m' : Memory} {buf buf' : Int} {size size' : Nat}

/-- A call of `process` does the same where the same is parsed. -/
theorem process_of_rel (hbuf : 0 < buf) (hbuf' : 0 < buf') {tail : List UInt8}
    (h : m'.slice buf' size' = m.slice buf size ++ tail)
    (hrel : Verdict.Rel (Wire.MovedCommand (buf' - buf))
      ((CommandParser.parse services.utils buf size).run m)
      ((CommandParser.parse services.utils buf' size').run m')) (outSize : Int) (s : σ) :
    process services m' buf' size' outSize s =
      { process services m buf size outSize s with
        lastCommand := (process services m buf size outSize s).lastCommand.map
          (MemcachedCommand.move (buf' - buf)) } := by
  cases hparse : (CommandParser.parse services.utils buf size).run m with
  | incomplete =>
    rw [hparse] at hrel
    cases hparse' : (CommandParser.parse services.utils buf' size').run m' with
    | incomplete =>
      unfold process
      simp only [hparse, hparse', Option.map_none]
    | failed e | done cmd =>
      rw [hparse'] at hrel
      cases hrel
  | failed e =>
    rw [hparse] at hrel
    cases hparse' : (CommandParser.parse services.utils buf' size').run m' with
    | failed e' =>
      rw [hparse'] at hrel
      cases hrel
      unfold process
      cases e <;> simp only [hparse, hparse', Option.map_none]
    | incomplete | done cmd =>
      rw [hparse'] at hrel
      cases hrel
  | done cmd =>
    rw [hparse] at hrel
    cases hparse' : (CommandParser.parse services.utils buf' size').run m' with
    | done cmd' =>
      rw [hparse'] at hrel
      cases hrel with
      | done hmoved =>
        subst hmoved
        have hsafe := (Parsing.safeSlices_of_parse hparse).isMemorySafe hbuf
        have hsafe' := (Parsing.safeSlices_of_parse hparse').isMemorySafe hbuf'
        rw [Parsing.process_eq_of_isMemorySafe hparse hsafe,
          Parsing.process_eq_of_isMemorySafe hparse' hsafe',
          Parsing.operation_move h hparse hparse']
        rfl
    | incomplete | failed e =>
      rw [hparse'] at hrel
      cases hrel

/-- A call of `process` does the same with the same bytes at another address. -/
theorem process_relocated (hbuf : 0 < buf) (hbuf' : 0 < buf')
    (h : m'.slice buf' size = m.slice buf size) (outSize : Int) (s : σ) :
    process services m' buf' size outSize s =
      { process services m buf size outSize s with
        lastCommand := (process services m buf size outSize s).lastCommand.map
          (MemcachedCommand.move (buf' - buf)) } :=
  process_of_rel hbuf hbuf' (h.trans (List.append_nil _).symm)
    (Parsing.parse_relocated services.utils h) outSize s

end CommandProcessor

namespace WorkThread

open Transition

variable {σ : Type} {services : Services σ} {bufferSize : Nat} {st st' : WorkThread σ}

/-- The thread with another input buffer. -/
def relocate (st : WorkThread σ) (memory : Memory) (inPtr : Int) : WorkThread σ :=
  { st with memory, inPtr }

/-- A thread and the same thread with another input buffer, which holds the same received bytes
while the thread works on them. -/
structure Alike (st st' : WorkThread σ) : Prop where
  eq_relocate : st' = st.relocate st'.memory st'.inPtr
  consumed_nonneg : 0 ≤ st.consumed
  received : st.phase = .reading ∨ st.phase = .processing →
    0 < st.inPtr ∧ 0 < st'.inPtr ∧ st.position = st.inputSize ∧
      st'.memory.slice st'.inPtr st.inputSize = st.memory.slice st.inPtr st.inputSize

theorem Alike.start (s : σ) : Alike ({ store := s } : WorkThread σ) { store := s } :=
  ⟨rfl, Int.le_refl 0, by simp⟩

/-- Outside of the outer loop, the input buffer does not matter. -/
theorem Alike.of_ended {last last' : WorkThread σ}
    (hsame : last' = last.relocate last'.memory last'.inPtr)
    (hended : ¬ (last.phase = .reading ∨ last.phase = .processing))
    (hconsumed : 0 ≤ last.consumed) : last.Alike last' :=
  ⟨hsame, hconsumed, fun hphase => absurd hphase hended⟩

/-- The bytes behind what is consumed are the same in both buffers. -/
theorem Alike.slice_unconsumed (h : st.Alike st') (hphase : st.phase = .processing)
    (hmore : st.consumed < st.inputSize) :
    st'.memory.slice (st'.inPtr + st.consumed) (st.inputSize - st.consumed).toNat =
      st.memory.slice (st.inPtr + st.consumed) (st.inputSize - st.consumed).toNat := by
  obtain ⟨-, -, -, hslice⟩ := h.received (.inr hphase)
  have hnonneg := h.consumed_nonneg
  obtain ⟨consumed, hconsumed⟩ := Int.eq_ofNat_of_zero_le hnonneg
  have hsize : st.inputSize = consumed + (st.inputSize - st.consumed).toNat := by omega
  rw [hconsumed] at hsize ⊢
  generalize (((st.inputSize : Nat) : Int) - (consumed : Int)).toNat = left at hsize ⊢
  rw [hsize, Memory.slice_add, Memory.slice_add] at hslice
  exact (List.append_inj hslice (by simp)).2

theorem Alike.processed (h : st.Alike st') (services : Services σ) (bufferSize : Nat)
    (hphase : st.phase = .processing) (hmore : st.consumed < st.inputSize) :
    st'.processed services bufferSize =
      { st.processed services bufferSize with
        lastCommand := (st.processed services bufferSize).lastCommand.map
          (MemcachedCommand.move (st'.inPtr - st.inPtr)) } := by
  obtain ⟨hptr, hptr', -, -⟩ := h.received (.inr hphase)
  have hnonneg := h.consumed_nonneg
  have hslice := h.slice_unconsumed hphase hmore
  have hsize : ((st.inputSize - st.consumed).toNat : Int) = st.inputSize - st.consumed := by omega
  have hbuf : 0 < st.inPtr + st.consumed := by omega
  have hbuf' : 0 < st'.inPtr + st.consumed := by omega
  have hrelocated : CommandProcessor.process services st'.memory (st'.inPtr + st.consumed)
      (st.inputSize - st.consumed).toNat bufferSize st.store = _ :=
    CommandProcessor.process_relocated hbuf hbuf' hslice bufferSize st.store
  have hshift : st'.inPtr + st.consumed - (st.inPtr + st.consumed) = st'.inPtr - st.inPtr := by
    omega
  rw [hsize, hshift] at hrelocated
  have hsame := h.eq_relocate
  rw [relocate] at hsame
  rw [WorkThread.processed, WorkThread.processed, hsame]
  exact hrelocated

theorem Alike.compact (h : st.Alike st') (hphase : st.phase = .processing) :
    st.compact.Alike st'.compact := by
  obtain ⟨hptr, hptr', hposition, hslice⟩ := h.received (.inr hphase)
  have hnonneg := h.consumed_nonneg
  have hmoved := h.slice_unconsumed hphase
  obtain ⟨memory', inPtr', hsame⟩ : ∃ memory' inPtr', st' = st.relocate memory' inPtr' :=
    ⟨_, _, h.eq_relocate⟩
  subst hsame
  simp only [relocate] at hptr' hslice hmoved ⊢
  unfold WorkThread.compact
  by_cases hconsumed : st.consumed > 0
  · simp only [hconsumed, if_true]
    refine ⟨rfl, hnonneg, fun _ => ⟨hptr, hptr', rfl, ?_⟩⟩
    have hself (m m' : Memory) (ptr ptr' : Int) (size : Nat) :
        (m.write ptr (m'.slice ptr' size)).slice ptr size = m'.slice ptr' size := by
      have hwrite := Memory.slice_write_self m ptr (m'.slice ptr' size)
      rwa [Memory.length_slice] at hwrite
    simp only [hself]
    by_cases hmore : st.consumed < st.inputSize
    · exact hmoved hmore
    · have hnone : (st.inputSize - st.consumed).toNat = 0 := by omega
      rw [hnone]
      rfl
  · simp only [hconsumed, if_false]
    exact ⟨rfl, hnonneg, fun _ => ⟨hptr, hptr', hposition, hslice⟩⟩

theorem Alike.outputTooLarge (h : st.Alike st') :
    (st.outputTooLarge bufferSize).Alike (st'.outputTooLarge bufferSize) := by
  have hsame := h.eq_relocate
  rw [hsame]
  unfold WorkThread.outputTooLarge
  split_ifs
  all_goals exact .of_ended rfl (by simp) h.consumed_nonneg

theorem Alike.inputTooLarge (h : st.Alike st') :
    (st.inputTooLarge bufferSize).Alike (st'.inputTooLarge bufferSize) := by
  unfold WorkThread.inputTooLarge
  split_ifs
  · have hsame := h.eq_relocate
    rw [hsame]
    exact .of_ended rfl (by simp) h.consumed_nonneg
  · exact h.outputTooLarge

theorem Alike.respond (h : st.Alike st') (bytes : List UInt8)
    {lastCommand : Option MemcachedCommand}
    (hpos : ∀ cmd, lastCommand = some cmd → 0 < cmd.inputConsumed) (shift : Int) :
    (st.respond bufferSize bytes lastCommand).Alike
      (st'.respond bufferSize bytes (lastCommand.map (MemcachedCommand.move shift))) := by
  have hnonneg := h.consumed_nonneg
  have hreceived := h.received
  obtain ⟨memory', inPtr', hsame⟩ : ∃ memory' inPtr', st' = st.relocate memory' inPtr' :=
    ⟨_, _, h.eq_relocate⟩
  subst hsame
  unfold WorkThread.respond
  cases lastCommand with
  | none =>
    simp only [Option.map_none]
    split_ifs
    all_goals exact .of_ended rfl (by simp) hnonneg
  | some cmd =>
    have hconsumed := hpos cmd rfl
    have hmoved : (cmd.move shift).inputConsumed = cmd.inputConsumed := rfl
    have hcls : (cmd.move shift).cls = cmd.cls := rfl
    have hafter : 0 ≤ st.consumed + cmd.inputConsumed := by omega
    simp only [Option.map_some, hmoved, hcls]
    split_ifs
    · exact .of_ended rfl (by simp) hnonneg
    · exact .of_ended rfl (by simp) hafter
    · exact ⟨rfl, hafter, hreceived⟩

theorem round_of_more (services : Services σ) (bufferSize : Nat)
    (hmore : st.consumed < st.inputSize) : st.round services bufferSize =
      match (st.processed services bufferSize).result with
      | .incomplete => (st.afterProcess services bufferSize).compact
      | .response bytes => (st.afterProcess services bufferSize).respond bufferSize bytes
          (st.processed services bufferSize).lastCommand
      | .bufferOverflow => (st.afterProcess services bufferSize).outputTooLarge bufferSize
      | .exit => { st.afterProcess services bufferSize with phase := .exited }
      | .uncaught _ => { st.afterProcess services bufferSize with phase := .dead } := by
  rw [WorkThread.round, if_pos hmore]
  rfl

/-- The command of a round consumes something. -/
theorem Alike.inputConsumed_pos (h : st.Alike st') (services : Services σ) (bufferSize : Nat)
    (hphase : st.phase = .processing) (hmore : st.consumed < st.inputSize) (cmd : MemcachedCommand)
    (hlast : (st.processed services bufferSize).lastCommand = some cmd) :
    0 < cmd.inputConsumed := by
  obtain ⟨hptr, -, -, -⟩ := h.received (.inr hphase)
  have hnonneg := h.consumed_nonneg
  have hbuf : 0 < st.inPtr + st.consumed := by omega
  have hsize : st.inputSize - st.consumed = ((st.inputSize - st.consumed).toNat : Int) := by omega
  unfold WorkThread.processed at hlast
  rw [hsize] at hlast
  exact (Parsing.inputConsumed_bounds (Parsing.parse_of_process_lastCommand hbuf hlast).1).1

/-- A round does the same in both buffers. -/
theorem Alike.round (h : st.Alike st') (hphase : st.phase = .processing) :
    (st.round services bufferSize).Alike (st'.round services bufferSize) := by
  have hsame := h.eq_relocate
  by_cases hmore : st.consumed < st.inputSize
  · have hprocessed := h.processed services bufferSize hphase hmore
    have hpos := h.inputConsumed_pos services bufferSize hphase hmore
    have hmore' : st'.consumed < st'.inputSize := by
      rw [hsame]
      exact hmore
    have hafter : (st.afterProcess services bufferSize).Alike
        (st'.afterProcess services bufferSize) := by
      refine ⟨?_, h.consumed_nonneg, h.received⟩
      unfold afterProcess
      rw [hprocessed, hsame]
      rfl
    rw [round_of_more services bufferSize hmore, round_of_more services bufferSize hmore',
      hprocessed]
    cases hresult : (st.processed services bufferSize).result with
    | incomplete => exact hafter.compact hphase
    | response bytes => exact hafter.respond bytes hpos (st'.inPtr - st.inPtr)
    | bufferOverflow => exact hafter.outputTooLarge
    | exit | uncaught =>
      rw [hafter.eq_relocate]
      exact .of_ended rfl (by simp) h.consumed_nonneg
  · have hmore' : ¬ st'.consumed < st'.inputSize := by
      rw [hsame]
      exact hmore
    rw [WorkThread.round, WorkThread.round, if_neg hmore, if_neg hmore', hsame]
    exact .of_ended rfl (by simp) h.consumed_nonneg

theorem Alike.advance (h : st.Alike st') (services : Services σ) (bufferSize : Nat) :
    (st.advance services bufferSize).Alike (st'.advance services bufferSize) := by
  have hsame := h.eq_relocate
  have hphases : st'.phase = st.phase := by rw [hsame, relocate]
  have hsizes : st'.inputSize = st.inputSize := by rw [hsame, relocate]
  unfold WorkThread.advance
  rw [hphases, hsizes]
  cases hphase : st.phase with
  | processing => exact h.round hphase
  | reading =>
    simp only
    split_ifs
    · exact h.inputTooLarge
    · exact h
  | waiting | closed | dead | exited => exact h

/-- The same event, but for the input buffer of the worker that takes the key. -/
inductive Event.Alike : Event → Event → Prop where
  | activate (memory memory' : Memory) (inPtr : Int) {inPtr' : Int} (hptr : 0 < inPtr') :
      Event.Alike (.activate memory inPtr) (.activate memory' inPtr')
  | refl (e : Event) : Event.Alike e e

theorem Alike.step {e e' : Event} {next : WorkThread σ} (h : st.Alike st') (he : e.Alike e')
    (hstep : st.step services bufferSize e = some next) :
    ∃ next', st'.step services bufferSize e' = some next' ∧ next.Alike next' := by
  have hnonneg := h.consumed_nonneg
  have hreceived := h.received
  have hadvance := h.advance services bufferSize
  obtain ⟨memory', inPtr', hsame⟩ : ∃ memory' inPtr', st' = st.relocate memory' inPtr' :=
    ⟨_, _, h.eq_relocate⟩
  subst hsame
  cases he with
  | activate memory memory' inPtr hptr' =>
    simp only [WorkThread.step, Option.ite_none_right_eq_some, Option.some.injEq] at hstep
    obtain ⟨⟨hphase, hptr⟩, rfl⟩ := hstep
    refine ⟨_, if_pos ⟨hphase, hptr'⟩, rfl, hnonneg, fun _ => ⟨hptr, hptr', rfl, rfl⟩⟩
  | refl e =>
    cases e with
    | activate memory inPtr =>
      simp only [WorkThread.step, Option.ite_none_right_eq_some, Option.some.injEq] at hstep
      obtain ⟨⟨hphase, hptr⟩, rfl⟩ := hstep
      exact ⟨_, if_pos ⟨hphase, hptr⟩, rfl, hnonneg, fun _ => ⟨hptr, hptr, rfl, rfl⟩⟩
    | read bytes =>
      simp only [WorkThread.step, Option.ite_none_right_eq_some, Option.some.injEq] at hstep
      obtain ⟨hmay, rfl⟩ := hstep
      obtain ⟨hptr, hptr', hposition, hslice⟩ := hreceived (.inl hmay.2.1)
      refine ⟨_, if_pos hmay, rfl, Int.le_refl 0, fun _ => ⟨hptr, hptr', ?_, ?_⟩⟩
      · simp only [hposition]
      · simp only [relocate] at hslice ⊢
        rw [hposition, Memory.slice_write_append, Memory.slice_write_append, hslice]
    | readNothing =>
      simp only [WorkThread.step, Option.ite_none_right_eq_some, Option.some.injEq] at hstep
      obtain ⟨hmay, rfl⟩ := hstep
      exact ⟨_, if_pos hmay, h⟩
    | hangUp =>
      simp only [WorkThread.step, Option.ite_none_right_eq_some, Option.some.injEq] at hstep
      obtain ⟨hmay, rfl⟩ := hstep
      exact ⟨_, if_pos hmay, .of_ended rfl (by simp) hnonneg⟩
    | advance =>
      simp only [WorkThread.step, Option.some.injEq] at hstep
      exact ⟨_, rfl, hstep ▸ hadvance⟩

theorem Alike.unconsumed (h : st.Alike st') : st'.unconsumed = st.unconsumed := by
  have hreceived := h.received
  have hmoved := h.slice_unconsumed
  obtain ⟨memory', inPtr', hsame⟩ : ∃ memory' inPtr', st' = st.relocate memory' inPtr' :=
    ⟨_, _, h.eq_relocate⟩
  subst hsame
  simp only [WorkThread.unconsumed, relocate] at hreceived hmoved ⊢
  cases hphase : st.phase with
  | reading => exact (hreceived (.inl hphase)).2.2.2
  | processing =>
    by_cases hmore : st.consumed < st.inputSize
    · exact hmoved hphase hmore
    · have hnone : (st.inputSize - st.consumed).toNat = 0 := by omega
      simp only [hnone]
      rfl
  | waiting | closed | dead | exited => rfl

theorem Alike.follow {events events' : List Event} {last : WorkThread σ} (h : st.Alike st')
    (hevents : List.Forall₂ Event.Alike events events')
    (hrun : Transition.follow (WorkThread.step services bufferSize) st events = some last) :
    ∃ last', Transition.follow (WorkThread.step services bufferSize) st' events' = some last' ∧
      last.Alike last' := by
  induction hevents generalizing st st' with
  | nil =>
    cases hrun
    exact ⟨st', rfl, h⟩
  | cons he _ ih =>
    simp only [Transition.follow, Option.bind_eq_some_iff] at hrun ⊢
    obtain ⟨next, hnext, hrest⟩ := hrun
    obtain ⟨next', hnext', halike⟩ := h.step he hnext
    obtain ⟨last', hlast', hfinal⟩ := ih halike hrest
    exact ⟨last', ⟨next', hnext', hlast'⟩, hfinal⟩

/-- Nothing that a worker's input buffer holds of other connections, and no address of it, shows
in what is done for a connection: with any other buffers at each activation, the same reads lead
to the same requests executed, the same bytes written and the same store. -/
theorem follow_isolated {events events' : List Event}
    (hevents : List.Forall₂ Event.Alike events events') {s : σ} {last : WorkThread σ}
    (hrun : Transition.follow (step services bufferSize) { store := s } events = some last) :
    ∃ last', Transition.follow (step services bufferSize) { store := s } events' = some last' ∧
      last'.phase = last.phase ∧ last'.unconsumed = last.unconsumed ∧
      last'.executed = last.executed ∧ last'.written = last.written ∧ last'.store = last.store := by
  obtain ⟨last', hlast', halike⟩ := (Alike.start s).follow hevents hrun
  have hsame := halike.eq_relocate
  refine ⟨last', hlast', ?_, halike.unconsumed, ?_, ?_, ?_⟩
  all_goals
    rw [hsame]
    rfl

/-- A cut off request in a buffer with the bytes of another connection, and in an empty one. -/
theorem follow_isolated_delete :
    let stale := Memory.ofBytes 100 (ascii "set secret 0 0 2\r\nxy\r\n")
    let reads : List Event := [.read (ascii "delete k\r\ndelete s"), .advance, .advance]
    ∃ last last' : WorkThread ListStore,
      Transition.follow (step listServices 64) { store := {} } (.activate stale 100 :: reads) =
        some last ∧
      Transition.follow (step listServices 64) { store := {} }
        (.activate (fun _ => 0) 7 :: reads) = some last' ∧
      last'.phase = last.phase ∧ last'.unconsumed = last.unconsumed ∧
      last'.executed = last.executed ∧ last'.written = last.written ∧
      last'.store = last.store := by
  intro stale reads
  obtain ⟨last, hlast⟩ : ∃ last, Transition.follow (step listServices 64) { store := {} }
      (.activate stale 100 :: reads) = some last := ⟨_, rfl⟩
  have hevents : List.Forall₂ Event.Alike (.activate stale 100 :: reads)
      (.activate (fun _ => 0) 7 :: reads) :=
    .cons (.activate _ _ _ (by decide)) (List.forall₂_same.mpr fun e _ => .refl e)
  obtain ⟨last', hlast'⟩ := follow_isolated hevents hlast
  exact ⟨last, last', hlast, hlast'⟩

end WorkThread

end Memcarrot
