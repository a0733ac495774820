import Memcarrot.Replies.InsideBuffer
import Memcarrot.Retrieval.Loop

open RawMemory

namespace Memcarrot

namespace RetrievalCommand

variable {σ : Type} {outBuffer outBufferSize : Int}

namespace Loop

variable {fetch : List UInt8 → σ → Record × σ} {write : RecordWrite} {isCAS : Bool}
  {keys : List (List UInt8)} {key : List UInt8} {loop : Loop σ}

/-- There is room for END behind what is in the output buffer. -/
def HasRoom (outBufferSize : Int) (loop : Loop σ) : Prop :=
  0 ≤ loop.outSize ∧ loop.outSize + 5 ≤ outBufferSize

/-- A bound on the rounds that are left. -/
def roundsLeft (count : Nat) (loop : Loop σ) : Nat :=
  2 * (count - loop.i) + if loop.outSize = 0 then 0 else 1

/-- A round writes what is left of the buffer at most. Where the loop goes on there is room for END
again, and a round less. -/
theorem body_inside (hwrite : RespectsSpace write) (hroom : loop.HasRoom outBufferSize)
    (hi : loop.i < keys.length) (key : List UInt8) :
    (∃ next : Loop σ, loop.body fetch write isCAS outBuffer outBufferSize key = .ok next ∧
        next.HasRoom outBufferSize ∧ next.roundsLeft keys.length < loop.roundsLeft keys.length ∧
        ∀ a, a < outBuffer ∨ outBuffer + outBufferSize ≤ a → next.memory a = loop.memory a) ∨
      ∃ next : Loop σ, loop.body fetch write isCAS outBuffer outBufferSize key = .error next ∧
        ∀ a, a < outBuffer ∨ outBuffer + outBufferSize ≤ a → next.memory a = loop.memory a := by
  obtain ⟨hnonneg, hend⟩ := hroom
  unfold body
  simp only
  split_ifs with habsent hfull hpos
  · refine .inl ⟨_, rfl, ⟨hnonneg, hend⟩, ?_, fun a _ => rfl⟩
    simp only [roundsLeft]
    omega
  · refine .inl ⟨_, rfl, ⟨Int.le_refl 0, ?_⟩, ?_, fun a ha => hwrite.outside (by omega)⟩
    · simp only
      omega
    · simp only [roundsLeft, if_neg (Int.ne_of_gt hpos), if_true]
      omega
  · exact .inr ⟨_, rfl, fun a ha => hwrite.outside (by omega)⟩
  · have hsize : 0 ≤ (write (fetch key loop.store).1 key (outBuffer + loop.outSize)
        (outBufferSize - loop.outSize) isCAS loop.memory).1 := hwrite.size_nonneg habsent
    refine .inl ⟨_, rfl, ⟨?_, ?_⟩, ?_, fun a ha => hwrite.outside (by omega)⟩
    · simp only
      omega
    · simp only
      omega
    · simp only [roundsLeft]
      split_ifs <;> omega

variable (fetch isCAS outBuffer) in
/-- The whole loop writes in the output buffer and comes to its end. -/
theorem run_inside (hwrite : RespectsSpace write) (hroom : loop.HasRoom outBufferSize) {fuel : Nat}
    (hfuel : loop.roundsLeft keys.length < fuel) :
    ∃ (last : Loop σ) (outcome : Outcome),
      loop.run fetch write isCAS outBuffer outBufferSize keys fuel = some (last, outcome) ∧
        (∀ bytes, outcome = .response bytes → 0 ≤ last.outSize ∧ last.outSize ≤ outBufferSize ∧
          bytes = last.memory.slice outBuffer last.outSize.toNat) ∧
        (∀ r ∈ loop.ranges fetch write isCAS outBuffer outBufferSize keys fuel,
          r.Inside outBuffer (outBuffer + outBufferSize)) ∧
        ∀ a, a < outBuffer ∨ outBuffer + outBufferSize ≤ a → last.memory a = loop.memory a := by
  induction fuel generalizing loop with
  | zero => omega
  | succ fuel ih =>
    obtain ⟨hnonneg, hend⟩ := hroom
    by_cases hi : loop.i < keys.length
    · have hkey : keys[loop.i]? = some keys[loop.i] := List.getElem?_eq_getElem hi
      have hround : ∀ r ∈ (if (fetch keys[loop.i] loop.store).1.value = none then []
          else [(⟨outBuffer + loop.outSize, outBufferSize - loop.outSize⟩ : Range)]),
          r.Inside outBuffer (outBuffer + outBufferSize) := by
        split_ifs
        · exact fun r hr => nomatch hr
        · intro r hr
          rw [List.mem_singleton.mp hr]
          exact ⟨by simp only; omega, by simp only; omega⟩
      rcases body_inside hwrite ⟨hnonneg, hend⟩ hi keys[loop.i] with
        ⟨next, hbody, hnext, hless, hmemory⟩ | ⟨next, hbody, hmemory⟩
      · obtain ⟨last, outcome, hrun, hsize, hranges, houtside⟩ := ih hnext (by omega)
        refine ⟨last, outcome, (run_ok hkey hbody fuel).trans hrun, hsize, fun r hr => ?_,
          fun a ha => (houtside a ha).trans (hmemory a ha)⟩
        simp only [ranges, hkey, hbody] at hr
        exact (List.mem_append.mp hr).elim (hround r) (hranges r)
      · refine ⟨next, .bufferOverflow, run_error hkey hbody fuel, (fun _ h => nomatch h),
          fun r hr => ?_, hmemory⟩
        simp only [ranges, hkey, hbody, List.append_nil] at hr
        exact hround r hr
    · have hkey : keys[loop.i]? = none := List.getElem?_eq_none (Nat.le_of_not_lt hi)
      have hlength : (END.length : Int) = 5 := rfl
      refine ⟨loop.finish outBuffer, _, by rw [run, hkey], fun bytes hbytes => ?_, fun r hr => ?_,
        fun a ha => Memory.write_of_outside _ _ (by omega)⟩
      · cases hbytes
        exact ⟨Int.add_nonneg hnonneg (by decide), hend, rfl⟩
      simp only [ranges, hkey, List.mem_singleton] at hr
      rw [hr]
      exact ⟨by simp only; omega, by simp only; omega⟩

/-- The rounds that `execute` allows for are enough. -/
theorem run_start (hwrite : RespectsSpace write) (hsize : 5 ≤ outBufferSize)
    (fetch : List UInt8 → σ → Record × σ) (isCAS : Bool) (outBuffer : Int)
    (keys : List (List UInt8)) (m : Memory) (s : σ) :
    ∃ (last : Loop σ) (outcome : Outcome),
      ({ memory := m, store := s } : Loop σ).run fetch write isCAS outBuffer outBufferSize keys
          (2 * keys.length + 1) = some (last, outcome) ∧
        (∀ bytes, outcome = .response bytes → 0 ≤ last.outSize ∧ last.outSize ≤ outBufferSize ∧
          bytes = last.memory.slice outBuffer last.outSize.toNat) ∧
        (∀ r ∈ ({ memory := m, store := s } : Loop σ).ranges fetch write isCAS outBuffer
            outBufferSize keys (2 * keys.length + 1),
          r.Inside outBuffer (outBuffer + outBufferSize)) ∧
        ∀ a, a < outBuffer ∨ outBuffer + outBufferSize ≤ a → last.memory a = m a :=
  run_inside outBuffer fetch isCAS hwrite ⟨Int.le_refl 0, hsize⟩ (Nat.lt_succ_self _)

end Loop

theorem WritesRecords.respectsSpace {encode : Record → List UInt8 → Bool → List UInt8}
    {write : RecordWrite} (h : WritesRecords encode write) : RespectsSpace write where
  size_nonneg hvalue := by
    rw [h.size hvalue]
    exact Int.natCast_nonneg _
  outside := h.outside

theorem executeAt_inside {write : RecordWrite} (hwrite : RespectsSpace write)
    (support : Memcached σ) (op : Operation) (s : σ) {m : Memory} {o : Tracked}
    (ho : o.Within outBuffer (outBuffer + outBufferSize) m) (hsize : 256 ≤ outBufferSize) :
    (executeAt support write outBuffer outBufferSize op s o).Inside outBuffer outBufferSize m := by
  obtain ⟨last, outcome, hrun, hlength, hranges, houtside⟩ := Loop.run_start hwrite
    (show 5 ≤ outBufferSize by omega) (op.fetch support) op.cls.isCAS outBuffer op.keys o.memory s
  simp only [executeAt, op.retrieve_eq_run, hrun]
  refine ⟨(Tracked.within_call fun _ => houtside).mpr ⟨ho, hranges⟩, ?_⟩
  cases outcome with
  | response bytes => exact (hlength bytes rfl).2.1
  | bufferOverflow | exit => exact trivial

end RetrievalCommand

end Memcarrot
