import Memcarrot.Wire.FieldForms

open Incremental RawMemory
open RawMemory.Access (Simulates)

namespace Memcarrot.Refinement

open Utils

variable {m : Memory} {lo hi base size off : Int}

theorem firstOffset_of_incomplete {skip : UInt8 → Bool} {c : Wire.Input}
    (h : (span skip c : Verdict Thrown _) = .incomplete) : firstOffset skip c.rest = -1 := by
  have hall := span_eq_incomplete_iff.mp h
  rw [firstOffset, if_pos (List.dropWhile_eq_nil_iff.mpr hall)]

theorem firstOffset_of_done {skip : UInt8 → Bool} {c : Wire.Input} {run : Wire.Token}
    {next : Wire.Input} (h : (span skip c : Verdict Thrown _) = .done (run, next)) :
    firstOffset skip c.rest = run.items.length := by
  obtain ⟨hrest, -, -, hkeep, stop, rest, hstop, hend⟩ := span_eq_done_iff.mp h
  rw [hrest, hstop, firstOffset, dropWhile_append_stop rest hkeep hend,
    takeWhile_append_stop rest hkeep hend, if_neg (by simp)]

/-- A scan that stops moves the cursor over the run it has skipped. -/
theorem at_of_span {skip : UInt8 → Bool} {c next : Wire.Input} {run : Wire.Token}
    (h : At m lo hi base off c)
    (hspan : (span skip c : Verdict Thrown _) = .done (run, next)) :
    At m lo hi base (run.items.length + off) next := by
  obtain ⟨hrest, -, hnext, -, -⟩ := span_eq_done_iff.mp hspan
  have hsplit : At m lo hi base (off + run.items.length) ⟨c.ptr + run.items.length, next.rest⟩ :=
    At.split (by rw [← hrest]; exact h)
  rw [← hnext] at hsplit
  rwa [Int.add_comm]

section Scan

variable {α β : Type} {R : α → β → Prop} {skip : UInt8 → Bool} {c : Wire.Input}
  {ptr limit : Int} {f : Int → Access Thrown α}

/-- A scan from a cursor finds the end of the input, or moves the cursor. -/
theorem scan_cases {v : Verdict Thrown β} (h : At m lo hi base off c) (hptr : ptr = base + off)
    (hlimit : ptr + limit = hi)
    (hincomplete : (span skip c : Verdict Thrown (Wire.Token × Wire.Input)) = .incomplete →
      Simulates m lo hi R (f (-1)) v)
    (hdone : ∀ run next,
      (span skip c : Verdict Thrown (Wire.Token × Wire.Input)) = .done (run, next) →
      At m lo hi base (run.items.length + off) next →
      Simulates m lo hi R (f run.items.length) v) :
    Simulates m lo hi R (scan skip ptr limit >>= f) v := by
  subst hptr
  apply (scan_simulates limit skip h hlimit).step
  cases hspan : (span skip c : Verdict Thrown (Wire.Token × Wire.Input)) with
  | incomplete =>
    rw [firstOffset_of_incomplete hspan]
    exact hincomplete hspan
  | failed e => exact absurd hspan span_ne_failed
  | done read =>
    obtain ⟨run, next⟩ := read
    rw [firstOffset_of_done hspan]
    exact hdone run next hspan (at_of_span h hspan)

theorem scan_bind {g : Wire.Token × Wire.Input → Verdict Thrown β} (h : At m lo hi base off c)
    (hptr : ptr = base + off) (hlimit : ptr + limit = hi)
    (hincomplete : Simulates m lo hi R (f (-1)) .incomplete)
    (hdone : ∀ run next,
      (span skip c : Verdict Thrown (Wire.Token × Wire.Input)) = .done (run, next) →
      At m lo hi base (run.items.length + off) next →
      Simulates m lo hi R (f run.items.length) (g (run, next))) :
    Simulates m lo hi R (scan skip ptr limit >>= f) (span skip c >>= g) := by
  refine scan_cases h hptr hlimit (fun hspan => ?_) fun run next hspan hnext => ?_
  · rw [hspan]
    exact hincomplete
  · rw [hspan]
    exact hdone run next hspan hnext

end Scan

theorem returnFalseIf_simulates {p q : Prop} [Decidable p] [Decidable q] (h : p ↔ q) :
    Simulates m lo hi Eq (returnFalseIf p) (Wire.incompleteIf q) := by
  unfold returnFalseIf Wire.incompleteIf
  by_cases hq : q
  · rw [if_pos (h.mpr hq), if_pos hq]
    exact .incomplete
  · rw [if_neg (mt h.mp hq), if_neg hq]
    exact .pure rfl

theorem throwIf_simulates {p q : Prop} [Decidable p] [Decidable q] (msg : String) (h : p ↔ q) :
    Simulates m lo hi Eq (throwIf p msg) (Wire.failIf q msg) := by
  unfold throwIf Wire.failIf
  by_cases hq : q
  · rw [if_pos (h.mpr hq), if_pos hq]
    exact .throw _
  · rw [if_neg (mt h.mp hq), if_neg hq]
    exact .pure rfl

theorem returnFalseIf_false {p : Prop} [Decidable p] (h : ¬ p) : returnFalseIf p = pure () :=
  if_neg h

theorem returnFalseIf_true {p : Prop} [Decidable p] (h : p) :
    returnFalseIf p = Access.incomplete :=
  if_pos h

theorem throwIf_false {p : Prop} [Decidable p] {msg : String} (h : ¬ p) :
    throwIf p msg = pure () :=
  if_neg h

/-- The offsets delimit the token in memory, and the input behind it is what follows. -/
structure TokenAt (m : Memory) (lo hi base : Int) (offsets : Int × Int)
    (read : Wire.Token × Wire.Input) : Prop where
  start : At m lo hi base offsets.1 ⟨read.1.ptr, read.1.items ++ read.2.rest⟩
  stop_eq : offsets.2 = offsets.1 + read.1.items.length
  next_ptr : read.2.ptr = read.1.ptr + read.1.items.length

theorem TokenAt.next {offsets : Int × Int} {read : Wire.Token × Wire.Input}
    (h : TokenAt m lo hi base offsets read) : At m lo hi base offsets.2 read.2 := by
  obtain ⟨hstart, hstop, hnext⟩ := h
  have hsplit := hstart.split
  rw [← hnext] at hsplit
  rwa [hstop]

theorem TokenAt.of_span {c next : Wire.Input} {token : Wire.Token} (h : At m lo hi base off c)
    (hspan : (span isTokenByte c : Verdict Thrown _) = .done (token, next)) :
    TokenAt m lo hi base (off, token.items.length + off) (token, next) := by
  obtain ⟨hrest, hptr, hnext, -, -⟩ := Wire.span_token_eq_done_iff.mp hspan
  refine ⟨?_, Int.add_comm _ _, by rw [hnext, hptr]⟩
  rw [← hrest, hptr]
  exact h

/-- The token scan from a cursor, followed by the test that a token was found. -/
theorem tokenEnd_simulates {c : Wire.Input} (h : At m lo hi base off c)
    (hsize : base + size = hi) :
    Simulates m lo hi (TokenAt m lo hi base)
      (do let len ← nextTokenEnd (base + off) (size - off)
          returnFalseIf (len ≤ 0)
          return (off, len + off))
      (Wire.keyField c) := by
  unfold Wire.keyField
  refine scan_bind h rfl (by omega) ?_ fun token next hspan _ => ?_
  · rw [returnFalseIf_true (by omega)]
    exact .incomplete
  refine (returnFalseIf_simulates ?_).bind fun _ _ _ _ => .pure (.of_span h hspan)
  rw [← List.length_eq_zero_iff]
  omega

theorem nextField_simulates {c : Wire.Input} (msg : String) (h : At m lo hi base off c)
    (hsize : base + size = hi) :
    Simulates m lo hi (TokenAt m lo hi base) (nextField base size off msg)
      (Wire.nextField msg c) := by
  unfold nextField Wire.nextField
  refine scan_bind h rfl (by omega) ?_ fun gap next _ hat => ?_
  · rw [returnFalseIf_true (by omega)]
    exact .incomplete
  refine (returnFalseIf_simulates ?_).bind fun _ _ _ _ => ?_
  · rw [← List.length_eq_zero_iff]
    omega
  refine (throwIf_simulates msg (by omega)).bind fun _ _ _ _ => ?_
  exact tokenEnd_simulates hat hsize

theorem strToLongDirect_simulates (U : CacheUtils) {offsets : Int × Int} {token : Wire.Token}
    {next : Wire.Input} (h : TokenAt m lo hi base offsets (token, next)) :
    Simulates m lo hi Eq (strToLongDirect U (base + offsets.1) (offsets.2 - offsets.1))
      (Wire.number U token) := by
  have hlen : (offsets.2 - offsets.1).toNat = token.items.length := by
    have hstop := h.stop_eq
    simp only at hstop
    omega
  unfold strToLongDirect Wire.number
  rw [hlen]
  apply h.start.bytes.step
  cases U.strToLongDirect token.items with
  | some value => exact .pure rfl
  | none => exact .throw _

/-- Reading is continued at corresponding places: the same flag, and an offset under the
cursor. -/
def FlagAt (m : Memory) (lo hi base : Int) (r : Bool × Int) (read : Bool × Wire.Input) : Prop :=
  r.1 = read.1 ∧ At m lo hi base r.2 read.2

theorem checkNoreply_simulates (U : CacheUtils) {start : Int} {word back : Wire.Input}
    {b : UInt8} {bs : List UInt8} (hrest : word.rest = b :: bs)
    (hword : At m lo hi base start word) (hback : At m lo hi base off back)
    (hsize : base + size = hi) :
    Simulates m lo hi (FlagAt m lo hi base) (checkNoreply U base size start off)
      (Wire.checkNoreply word back) := by
  obtain ⟨ptr, rest⟩ := word
  simp only at hrest
  subst hrest
  have hlen : size - start = (b :: bs).length := by
    have hends := hword.views.ends
    have hptr := hword.ptr_eq
    simp only at hends hptr
    omega
  unfold checkNoreply Wire.checkNoreply
  apply hword.byte.step
  simp only [List.head?_cons, Option.some.injEq]
  by_cases hn : b = LOWER_N
  · simp only [hn, true_and, if_true]
    rw [← hn]
    by_cases hlong : 9 ≤ (b :: bs).length
    · rw [if_pos hlong, if_pos (by omega)]
      have htake : ((b :: bs).take 7).length = 7 := by
        rw [List.length_take]
        omega
      have hsplit : At m lo hi base start ⟨ptr, (b :: bs).take 7 ++ (b :: bs).drop 7⟩ := by
        rw [List.take_append_drop]
        exact hword
      have hread : Simulates m lo hi Eq (compareTo U (base + start) 7 NOREPLY)
          (.done (U.compareTo ((b :: bs).take 7) NOREPLY)) := by
        have hbytes := hsplit.bytes (ε := Thrown)
        rw [htake] at hbytes
        exact hbytes.step (.pure rfl)
      apply hread.step
      have hcompare := U.compareTo_eq_zero_iff ((b :: bs).take 7) NOREPLY (by rw [htake]; rfl)
      by_cases heq : (b :: bs).take 7 = NOREPLY
      · rw [if_pos (hcompare.mpr heq), if_pos heq]
        have hnext := hsplit.split
        rw [htake] at hnext
        exact .pure ⟨rfl, hnext⟩
      · rw [if_neg (mt hcompare.mp heq), if_neg heq]
        exact .pure ⟨rfl, hback⟩
    · rw [if_neg hlong, if_neg (by omega)]
      exact .incomplete
  · simp only [hn, false_and, if_false]
    exact .pure ⟨rfl, hback⟩

theorem noreplyField_simulates (U : CacheUtils) {c : Wire.Input} (h : At m lo hi base off c)
    (hsize : base + size = hi) :
    Simulates m lo hi (FlagAt m lo hi base) (noreplyField U base size off)
      (Wire.noreplyField c) := by
  unfold noreplyField Wire.noreplyField
  refine scan_bind h rfl (by omega) ?_ fun gap word hspan hat => ?_
  · rw [returnFalseIf_true (by omega)]
    exact .incomplete
  rw [returnFalseIf_false (by omega)]
  obtain ⟨-, -, -, -, b, bs, hword, -⟩ := span_eq_done_iff.mp hspan
  exact checkNoreply_simulates U hword hat h hsize

theorem skipCRLF_simulates {c : Wire.Input} (msg : String) (h : At m lo hi base off c)
    (hsize : base + size = hi) :
    Simulates m lo hi (At m lo hi base) (skipCRLF base size off msg) (Wire.skipCRLF msg c) := by
  have hends := h.views.ends
  have hptr := h.ptr_eq
  obtain ⟨ptr, rest⟩ := c
  simp only at hends hptr
  unfold skipCRLF Wire.skipCRLF
  match rest with
  | [] =>
    rw [returnFalseIf_true (by simp at hends; omega)]
    exact .incomplete
  | [_] =>
    rw [returnFalseIf_true (by simp at hends; omega)]
    exact .incomplete
  | first :: second :: rest =>
    rw [returnFalseIf_false (by simp only [List.length_cons] at hends; omega)]
    apply h.byte.step
    refine (throwIf_simulates msg Iff.rfl).bind fun _ _ _ _ => ?_
    apply h.tail.byte.step
    refine (throwIf_simulates msg Iff.rfl).bind fun _ _ _ _ => .pure ?_
    have htail := h.tail.tail
    rwa [show ptr + 1 + 1 = ptr + 2 by omega] at htail

theorem lineEnd_simulates (U : CacheUtils) {c : Wire.Input} (msg : String)
    (h : At m lo hi base off c) (hsize : base + size = hi) :
    Simulates m lo hi (FlagAt m lo hi base) (lineEnd U base size off msg)
      (Wire.lineEnd msg c) := by
  apply (noreplyField_simulates U h hsize).bind
  rintro ⟨noreply, stop⟩ ⟨flag, back⟩ ⟨rfl, hat⟩ -
  exact (skipCRLF_simulates msg hat hsize).bind fun _ _ hnext _ => .pure ⟨rfl, hnext⟩

end Memcarrot.Refinement
