import Memcarrot.Commands.RetrievalLoop
import Memcarrot.Retrieval.Answers

open RawMemory

namespace Memcarrot.RetrievalCommand

/-- `Record.write` returns the size of the encoding, and puts it into the given space if it fits;
it writes nothing outside of this space. -/
structure WritesRecords (encode : Record → List UInt8 → Bool → List UInt8) (write : RecordWrite) :
    Prop where
  size : ∀ {r key ptr space isCAS m}, r.value ≠ none →
    (write r key ptr space isCAS m).1 = (encode r key isCAS).length
  fits : ∀ {r key ptr space isCAS m}, r.value ≠ none →
    ((encode r key isCAS).length : Int) ≤ space →
    (write r key ptr space isCAS m).2 = m.write ptr (encode r key isCAS)
  outside : ∀ {r key ptr space isCAS m a}, a < ptr ∨ ptr + space ≤ a →
    (write r key ptr space isCAS m).2 a = m a

/-- A `Record.write` that writes nothing where the encoding does not fit. -/
def writeIfFits (encode : Record → List UInt8 → Bool → List UInt8) : RecordWrite :=
  fun r key ptr space isCAS m =>
    let bytes := encode r key isCAS
    (bytes.length, if (bytes.length : Int) ≤ space then m.write ptr bytes else m)

theorem writeIfFits_writesRecords (encode : Record → List UInt8 → Bool → List UInt8) :
    WritesRecords encode (writeIfFits encode) where
  size _ := rfl
  fits _ hspace := if_pos hspace
  outside := by
    intro r key ptr space isCAS m a ha
    simp only [writeIfFits]
    split_ifs with hspace
    · exact if_neg (by omega)
    · rfl

namespace Loop

variable {σ : Type} {fetch : List UInt8 → σ → Record × σ} {write : RecordWrite}
  {encode : Record → List UInt8 → Bool → List UInt8} {isCAS : Bool}
  {outBuffer outBufferSize : Int} {keys : List (List UInt8)} {key : List UInt8} {loop : Loop σ}

/-- The output buffer holds the given bytes. -/
structure Holds (outBuffer : Int) (loop : Loop σ) (out : List UInt8) : Prop where
  outSize : loop.outSize = out.length
  slice : loop.memory.slice outBuffer out.length = out

theorem body_absent {out : List UInt8} (hholds : loop.Holds outBuffer out)
    (h : (fetch key loop.store).1.value = none) :
    ∃ next : Loop σ, loop.body fetch write isCAS outBuffer outBufferSize key = .ok next ∧
      next.Holds outBuffer out ∧ next.store = (fetch key loop.store).2 ∧
      next.chunks = loop.chunks ∧ next.i = loop.i + 1 ∧ next.calls = loop.calls ++ [loop.i] := by
  rw [body]
  simp only [h, if_true]
  exact ⟨_, rfl, ⟨hholds.outSize, hholds.slice⟩, rfl, rfl, rfl, rfl⟩

theorem body_fits (hwrite : WritesRecords encode write) {out : List UInt8}
    (hholds : loop.Holds outBuffer out) (h : (fetch key loop.store).1.value ≠ none)
    (hsize : ((encode (fetch key loop.store).1 key isCAS).length : Int) ≤
      outBufferSize - out.length - 5) :
    ∃ next : Loop σ, loop.body fetch write isCAS outBuffer outBufferSize key = .ok next ∧
      next.Holds outBuffer (out ++ encode (fetch key loop.store).1 key isCAS) ∧
      next.store = (fetch key loop.store).2 ∧ next.chunks = loop.chunks ∧ next.i = loop.i + 1 ∧
      next.calls = loop.calls ++ [loop.i] := by
  have hout := hholds.outSize
  rw [body]
  simp only [h, if_false, hwrite.size h, hout, gt_iff_lt, Int.not_lt.mpr hsize,
    hwrite.fits h (show ((encode (fetch key loop.store).1 key isCAS).length : Int) ≤
      outBufferSize - out.length by omega)]
  refine ⟨_, rfl, ⟨?_, ?_⟩, rfl, rfl, rfl, rfl⟩
  · rw [List.length_append, Int.natCast_add]
  · have happend := Memory.slice_write_append loop.memory outBuffer out.length
      (encode (fetch key loop.store).1 key isCAS)
    rw [hholds.slice] at happend
    rwa [List.length_append]

theorem body_full (hwrite : WritesRecords encode write) {out : List UInt8}
    (hholds : loop.Holds outBuffer out) (h : (fetch key loop.store).1.value ≠ none)
    (hsize : ((encode (fetch key loop.store).1 key isCAS).length : Int) >
      outBufferSize - out.length - 5) (hne : out ≠ []) :
    ∃ next : Loop σ, loop.body fetch write isCAS outBuffer outBufferSize key = .ok next ∧
      next.Holds outBuffer [] ∧ next.store = (fetch key loop.store).2 ∧
      next.chunks = loop.chunks ++ [out] ∧ next.i = loop.i ∧
      next.calls = loop.calls ++ [loop.i] := by
  have hpos := List.length_pos_of_ne_nil hne
  have hpos' : (0 : Int) < out.length := by omega
  rw [body]
  simp only [h, if_false, hwrite.size h, hholds.outSize, hsize, if_true, gt_iff_lt, hpos']
  refine ⟨_, rfl, ⟨rfl, rfl⟩, rfl, ?_, rfl, rfl⟩
  -- `Record.write` leaves the bytes in front of its space
  have hkept : (write (fetch key loop.store).1 key (outBuffer + out.length)
      (outBufferSize - out.length) isCAS loop.memory).2.slice outBuffer out.length =
        loop.memory.slice outBuffer out.length :=
    Memory.slice_congr fun a _ hhi => hwrite.outside (.inl hhi)
  rw [Int.toNat_natCast, hkept, hholds.slice]

theorem body_tooLarge (hwrite : WritesRecords encode write) (hholds : loop.Holds outBuffer [])
    (h : (fetch key loop.store).1.value ≠ none)
    (hsize : ((encode (fetch key loop.store).1 key isCAS).length : Int) > outBufferSize - 5) :
    ∃ next : Loop σ, loop.body fetch write isCAS outBuffer outBufferSize key = .error next ∧
      next.store = (fetch key loop.store).2 ∧ next.chunks = loop.chunks ∧
      next.calls = loop.calls ++ [loop.i] := by
  have hout : loop.outSize = 0 := hholds.outSize
  have hsize' : ((encode (fetch key loop.store).1 key isCAS).length : Int) >
      outBufferSize - 0 - 5 := by omega
  rw [body]
  simp only [h, if_false, hwrite.size h, hout, hsize', if_true, gt_iff_lt, Int.lt_irrefl]
  exact ⟨_, rfl, rfl, rfl, rfl⟩

/-- How often the store is still called for a position. -/
def callsLeft (i : Nat) (out : List UInt8) (p : Nat) : Nat :=
  if p < i then 0 else if p = i ∧ out = [] then 1 else 2

/-- The calls of the store from position `i` on, with `out` in the buffer. -/
def CallsWithin (i : Nat) (out : List UInt8) (calls : List Nat) : Prop :=
  ∀ p, calls.count p ≤ callsLeft i out p

theorem callsLeft_le_two (i : Nat) (out : List UInt8) (p : Nat) : callsLeft i out p ≤ 2 := by
  unfold callsLeft
  split_ifs <;> omega

theorem CallsWithin.nil (i : Nat) (out : List UInt8) : CallsWithin i out [] := by
  intro p
  rw [List.count_nil]
  exact Nat.zero_le _

theorem CallsWithin.next {i : Nat} {out after : List UInt8} {calls : List Nat}
    (h : CallsWithin (i + 1) after calls) : CallsWithin i out (i :: calls) := by
  intro p
  have hp := h p
  rw [List.count_cons]
  unfold callsLeft at hp ⊢
  simp only [beq_iff_eq] at hp ⊢
  split_ifs at hp ⊢ <;> omega

theorem CallsWithin.again {i : Nat} {out : List UInt8} {calls : List Nat} (hout : out ≠ [])
    (h : CallsWithin i [] calls) : CallsWithin i out (i :: calls) := by
  intro p
  have hp := h p
  rw [List.count_cons]
  unfold callsLeft at hp ⊢
  simp only [beq_iff_eq, hout, and_true, and_false, if_false] at hp ⊢
  split_ifs at hp ⊢ <;> omega

/-- The rounds from `loop` on end in `last`, with what the loop on lists computes. -/
structure EndsAs (loop : Loop σ) (out : List UInt8) (executed : Executed σ) (last : Loop σ) :
    Prop where
  chunks : last.chunks = loop.chunks ++ executed.chunks
  store : last.store = executed.store
  calls : ∃ calls, last.calls = loop.calls ++ calls ∧ CallsWithin loop.i out calls

theorem EndsAs.next {next last : Loop σ} {out after : List UInt8} {executed : Executed σ}
    (h : next.EndsAs after executed last) (hchunks : next.chunks = loop.chunks)
    (hi : next.i = loop.i + 1) (hcalls : next.calls = loop.calls ++ [loop.i]) :
    loop.EndsAs out executed last := by
  obtain ⟨calls, hlast, hwithin⟩ := h.calls
  rw [hi] at hwithin
  refine ⟨by rw [h.chunks, hchunks], h.store, loop.i :: calls, ?_, hwithin.next⟩
  rw [hlast, hcalls, List.append_assoc, List.singleton_append]

theorem EndsAs.again {next last : Loop σ} {out : List UInt8} {executed : Executed σ}
    (h : next.EndsAs [] executed last) (hout : out ≠ [])
    (hchunks : next.chunks = loop.chunks ++ [out]) (hi : next.i = loop.i)
    (hcalls : next.calls = loop.calls ++ [loop.i]) :
    loop.EndsAs out { executed with chunks := out :: executed.chunks } last := by
  obtain ⟨calls, hlast, hwithin⟩ := h.calls
  rw [hi] at hwithin
  refine ⟨?_, h.store, loop.i :: calls, ?_, hwithin.again hout⟩
  · rw [h.chunks, hchunks, List.append_assoc, List.singleton_append]
  · rw [hlast, hcalls, List.append_assoc, List.singleton_append]

theorem run_end {out : List UInt8} (hholds : loop.Holds outBuffer out)
    (hi : ¬ loop.i < keys.length) (fuel : Nat) :
    loop.run fetch write isCAS outBuffer outBufferSize keys (fuel + 1) =
      some (loop.finish outBuffer, .response (out ++ END)) := by
  have happend := Memory.slice_write_append loop.memory outBuffer out.length END
  rw [hholds.slice] at happend
  rw [run, List.getElem?_eq_none (Nat.le_of_not_lt hi)]
  simp only [finish, hholds.outSize]
  exact congrArg (fun bytes => some (_, Outcome.response bytes)) happend

theorem run_ok {next : Loop σ} (hkey : keys[loop.i]? = some key)
    (h : loop.body fetch write isCAS outBuffer outBufferSize key = .ok next) (fuel : Nat) :
    loop.run fetch write isCAS outBuffer outBufferSize keys (fuel + 1) =
      next.run fetch write isCAS outBuffer outBufferSize keys fuel := by
  rw [run]
  simp only [hkey, h]

theorem run_error {next : Loop σ} (hkey : keys[loop.i]? = some key)
    (h : loop.body fetch write isCAS outBuffer outBufferSize key = .error next) (fuel : Nat) :
    loop.run fetch write isCAS outBuffer outBufferSize keys (fuel + 1) =
      some (next, .bufferOverflow) := by
  rw [run]
  simp only [hkey, h]

variable (fetch isCAS outBufferSize) in
/-- The loop ends as the loop on lists does, after at most two calls of the store for a position:
each round comes closer to the end, or empties the buffer. -/
theorem run_eq (hwrite : WritesRecords encode write) {out : List UInt8}
    (hholds : loop.Holds outBuffer out) {fuel : Nat}
    (hfuel : 2 * (keys.length - loop.i) + (if out = [] then 0 else 1) < fuel) :
    ∃ last : Loop σ,
      loop.run fetch write isCAS outBuffer outBufferSize keys fuel =
          some (last, (executeLoop fetch (fun r key => encode r key isCAS) outBufferSize
            (keys.drop loop.i) out loop.store).outcome) ∧
        loop.EndsAs out (executeLoop fetch (fun r key => encode r key isCAS) outBufferSize
          (keys.drop loop.i) out loop.store) last := by
  induction fuel generalizing loop out with
  | zero => omega
  | succ fuel ih =>
    by_cases hi : loop.i < keys.length
    · have hkey : keys[loop.i]? = some keys[loop.i] := List.getElem?_eq_getElem hi
      rw [List.drop_eq_getElem_cons hi]
      -- what the next round can still need
      have hnext : ∀ after : List UInt8,
          2 * (keys.length - (loop.i + 1)) + (if after = [] then 0 else 1) < fuel := by
        intro after
        split_ifs at hfuel ⊢ <;> omega
      by_cases habsent : (fetch keys[loop.i] loop.store).1.value = none
      · obtain ⟨next, hbody, hnextHolds, hstore, hchunks, hnextI, hcalls⟩ :=
          body_absent hholds habsent
        obtain ⟨last, hrun, hends⟩ := ih hnextHolds (hnextI ▸ hnext out)
        rw [hnextI, hstore] at hrun hends
        rw [run_ok hkey hbody, executeLoop_absent habsent]
        exact ⟨last, hrun, hends.next hchunks hnextI hcalls⟩
      by_cases hsize : ((encode (fetch keys[loop.i] loop.store).1 keys[loop.i] isCAS).length : Int) ≤
          outBufferSize - out.length - 5
      · obtain ⟨next, hbody, hnextHolds, hstore, hchunks, hnextI, hcalls⟩ :=
          body_fits hwrite hholds habsent hsize
        obtain ⟨last, hrun, hends⟩ := ih hnextHolds (hnextI ▸ hnext _)
        rw [hnextI, hstore] at hrun hends
        rw [run_ok hkey hbody, executeLoop_fits habsent hsize]
        exact ⟨last, hrun, hends.next hchunks hnextI hcalls⟩
      have hfull := Int.not_le.mp hsize
      by_cases hout : out = []
      · subst hout
        have htooLarge : ((encode (fetch keys[loop.i] loop.store).1 keys[loop.i] isCAS).length : Int) >
            outBufferSize - 5 := by
          rw [List.length_nil] at hfull
          omega
        obtain ⟨next, hbody, hstore, hchunks, hcalls⟩ := body_tooLarge hwrite hholds habsent htooLarge
        rw [run_error hkey hbody, executeLoop_tooLarge habsent htooLarge]
        refine ⟨next, rfl, ?_, hstore, [loop.i], hcalls, (CallsWithin.nil _ []).next⟩
        rw [hchunks, List.append_nil]
      · obtain ⟨next, hbody, hnextHolds, hstore, hchunks, hnextI, hcalls⟩ :=
          body_full hwrite hholds habsent hfull hout
        have hagain :
            2 * (keys.length - next.i) + (if ([] : List UInt8) = [] then 0 else 1) < fuel := by
          rw [hnextI, if_pos rfl]
          rw [if_neg hout] at hfuel
          omega
        obtain ⟨last, hrun, hends⟩ := ih hnextHolds hagain
        rw [hnextI, hstore, List.drop_eq_getElem_cons hi] at hrun hends
        rw [run_ok hkey hbody, executeLoop_full habsent hfull hout]
        exact ⟨last, hrun, hends.again hout hchunks hnextI hcalls⟩
    · have hdrop : keys.drop loop.i = [] := List.drop_eq_nil_of_le (Nat.le_of_not_lt hi)
      rw [run_end hholds hi, hdrop, executeLoop_nil]
      exact ⟨_, rfl, (List.append_nil _).symm, rfl, [], (List.append_nil _).symm, .nil _ _⟩

end Loop

end Memcarrot.RetrievalCommand

namespace Memcarrot

open RetrievalCommand

theorem Operation.retrieve_eq_run {σ : Type} (support : Memcached σ) (write : RecordWrite)
    (outBuffer outBufferSize : Int) (op : Operation) (fuel : Nat) (loop : Loop σ) :
    op.retrieve support write outBuffer outBufferSize fuel loop =
      loop.run (op.fetch support) write op.cls.isCAS outBuffer outBufferSize op.keys fuel := by
  obtain ⟨cls, key, data, keys, flags, exptime, cas, value, noreply, delay⟩ := op
  cases cls <;> rfl

/-- The execute of a retrieval command ends in memory as it does on lists. -/
theorem Operation.retrieve_refines {σ : Type} (services : Services σ) {write : RecordWrite}
    (hwrite : WritesRecords services.support.write write) {op : Operation}
    (hop : op.cls.isRetrieval = true) (outBuffer outBufferSize : Int) (m : Memory) (s : σ)
    {rounds : Nat} (hrounds : 2 * op.keys.length < rounds) :
    ∃ last : Loop σ,
      op.retrieve services.support write outBuffer outBufferSize rounds
          { memory := m, store := s } =
          some (last, (op.execute services outBufferSize s).outcome) ∧
        last.chunks = (op.execute services outBufferSize s).chunks ∧
        last.store = (op.execute services outBufferSize s).store := by
  have hholds : ({ memory := m, store := s } : Loop σ).Holds outBuffer [] := ⟨rfl, rfl⟩
  have hfuel : 2 * (op.keys.length - 0) + (if ([] : List UInt8) = [] then 0 else 1) < rounds := by
    simpa using hrounds
  obtain ⟨last, hrun, hends⟩ :=
    Loop.run_eq (op.fetch services.support) op.cls.isCAS outBufferSize hwrite hholds hfuel
  rw [List.drop_zero] at hrun hends
  rw [op.retrieve_eq_run, op.execute_retrieval services outBufferSize hop]
  refine ⟨last, hrun, ?_, hends.store⟩
  rw [hends.chunks, List.nil_append]

end Memcarrot
