import Memcarrot.Server.WorkThread

open RawMemory

namespace Memcarrot.WorkThread

variable {σ : Type} {services : Services σ} {bufferSize : Nat} {st : WorkThread σ}

/-- The bounds of the loop over the requests. -/
structure Bounded (st : WorkThread σ) : Prop where
  inPtr_pos : 0 < st.inPtr
  position_eq : st.position = st.inputSize
  consumed_nonneg : 0 ≤ st.consumed
  consumed_le : st.consumed ≤ st.inputSize

theorem unconsumed_eq (hphase : st.phase = .processing) :
    st.unconsumed =
      st.memory.slice (st.inPtr + st.consumed) (st.inputSize - st.consumed).toNat := by
  unfold unconsumed
  rw [hphase]

theorem length_unconsumed (hphase : st.phase = .processing) (hst : st.Bounded) :
    (st.unconsumed.length : Int) = st.inputSize - st.consumed := by
  have hle := hst.consumed_le
  rw [unconsumed_eq hphase, Memory.length_slice]
  omega

theorem round_of_empty (hphase : st.phase = .processing) (hst : st.Bounded)
    (hempty : st.unconsumed = []) :
    st.round services bufferSize = { st with phase := .waiting } := by
  have hlength := length_unconsumed hphase hst
  rw [hempty, List.length_nil] at hlength
  have hend : ¬ st.consumed < st.inputSize := by omega
  rw [round, if_neg hend]

/-- What a command consumes is taken from the front of the unconsumed bytes. -/
theorem consume_spec (hphase : st.phase = .processing) (hst : st.Bounded) {k : Nat}
    (hle : k ≤ st.unconsumed.length) (store : σ) (executed : List Operation)
    (written : List UInt8) :
    Bounded { st with store, executed, written, consumed := st.consumed + k } ∧
      unconsumed { st with store, executed, written, consumed := st.consumed + k } =
        st.unconsumed.drop k := by
  have hlength := length_unconsumed hphase hst
  obtain ⟨hptr, hposition, hnonneg, -⟩ := hst
  have hlo : 0 ≤ st.consumed + (k : Int) := by omega
  have hhi : st.consumed + (k : Int) ≤ st.inputSize := by omega
  refine ⟨⟨hptr, hposition, hlo, hhi⟩, ?_⟩
  have hsize : (st.inputSize - st.consumed).toNat =
      k + (st.inputSize - (st.consumed + k)).toNat := by omega
  have hsplit := Memory.slice_add st.memory (st.inPtr + st.consumed) k
    (st.inputSize - (st.consumed + k)).toNat
  rw [unconsumed_eq hphase, hsize, hsplit, List.drop_left' (Memory.length_slice ..), Int.add_assoc]
  simp only [unconsumed, hphase]

/-- Compaction keeps the unconsumed bytes. -/
theorem compact_spec (hphase : st.phase = .processing) (hst : st.Bounded) :
    st.compact.unconsumed = st.unconsumed ∧ st.compact.phase = .reading ∧
      st.compact.position = st.compact.inputSize ∧
      st.compact = { st with
        phase := .reading, memory := st.compact.memory, position := st.compact.position
        inputSize := st.compact.inputSize } := by
  obtain ⟨-, hposition, hnonneg, -⟩ := hst
  rw [unconsumed_eq hphase]
  unfold compact
  split
  · refine ⟨?_, rfl, rfl, rfl⟩
    have hself := Memory.slice_write_self st.memory st.inPtr
      (st.memory.slice (st.inPtr + st.consumed) (st.inputSize - st.consumed).toNat)
    rw [Memory.length_slice] at hself
    exact hself
  · refine ⟨?_, rfl, hposition, rfl⟩
    have hzero : st.consumed = 0 := by omega
    simp only [unconsumed, hzero, Int.add_zero, Int.sub_zero, Int.toNat_natCast]

/-- The call of `process` in a round. -/
def processed (services : Services σ) (bufferSize : Nat) (st : WorkThread σ) : Processed σ :=
  CommandProcessor.process services st.memory (st.inPtr + st.consumed) (st.inputSize - st.consumed)
    bufferSize st.store

/-- The state once `process` has returned or thrown. -/
def afterProcess (services : Services σ) (bufferSize : Nat) (st : WorkThread σ) : WorkThread σ :=
  let p := st.processed services bufferSize
  { st with
    store := p.store
    executed := st.executed ++ p.executed.toList
    written := st.written ++ p.chunks.flatten }

theorem round_of_ne_nil (services : Services σ) (bufferSize : Nat)
    (hphase : st.phase = .processing) (hst : st.Bounded) (hne : st.unconsumed ≠ []) :
    st.round services bufferSize =
      match (st.processed services bufferSize).result with
      | .incomplete => (st.afterProcess services bufferSize).compact
      | .response bytes => (st.afterProcess services bufferSize).respond bufferSize bytes
          (st.processed services bufferSize).lastCommand
      | .bufferOverflow => (st.afterProcess services bufferSize).outputTooLarge bufferSize
      | .exit => { st.afterProcess services bufferSize with phase := .exited }
      | .uncaught _ => { st.afterProcess services bufferSize with phase := .dead } := by
  have hlength := length_unconsumed hphase hst
  have hpos := List.length_pos_of_ne_nil hne
  have hmore : st.consumed < st.inputSize := by omega
  rw [round, if_pos hmore]
  rfl

end Memcarrot.WorkThread
