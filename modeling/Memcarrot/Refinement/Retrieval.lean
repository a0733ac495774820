import Memcarrot.Refinement.Commands
import Memcarrot.Wire.TokenCount

open Incremental RawMemory
open RawMemory.Access (Simulates)

namespace Memcarrot.Refinement

open Utils

variable {m : Memory} {lo hi base size : Int} {args : Wire.Input}

/-- What a round of the count adds to the number of tokens. -/
def countFrom (count : Int) (s : List UInt8) : Int :=
  match Wire.countTokens false s with
  | none => -1
  | some n => count + n

theorem countFrom_of_no_cr {count : Int} {s : List UInt8} (h : CR ∉ s) :
    countFrom count s = -1 := by
  rw [countFrom, Wire.countTokens_eq_none_iff.mpr h]

theorem countFrom_cr (count : Int) (s : List UInt8) : countFrom count (CR :: s) = count := by
  simp [countFrom, Wire.countTokens]

theorem countFrom_token {count : Int} {t s : List UInt8} (n : Nat) (ht : Wire.IsToken t)
    (hs : Wire.Stops s) :
    countFrom count (List.replicate n SP ++ (t ++ s)) = countFrom (count + 1) s := by
  rw [countFrom, Wire.countTokens_spaces, Wire.countTokens_token ht hs, countFrom]
  cases Wire.countTokens false s with
  | none => rfl
  | some k =>
    simp only [Option.map_some]
    omega

/-- The counting pass counts the tokens in front of the first CR. The induction is on the fuel,
which stays above the number of bytes that are left. -/
theorem countLoop_simulates (m : Memory) (lo : Int) (hsize : base + size = hi) :
    ∀ (fuel : Nat) (off count : Int) (c : Wire.Input), c.rest ≠ [] → c.rest.length < fuel →
      At m lo hi base off c →
      Simulates m lo hi Eq (RetrievalCommand.countLoop base size fuel off count)
        (.done (countFrom count c.rest)) := by
  intro fuel
  induction fuel with
  | zero => intro off count c _ hfuel; omega
  | succ fuel ih =>
    intro off count c hne hfuel hat
    obtain ⟨ptr, rest⟩ := c
    obtain ⟨b, bs, rfl⟩ : ∃ b bs, rest = b :: bs := List.exists_cons_of_ne_nil hne
    have hends := hat.views.ends
    have hptr := hat.ptr_eq
    simp only [List.length_cons] at hends hptr
    unfold RetrievalCommand.countLoop
    apply hat.byte.step
    by_cases hcr : b = CR
    · subst hcr
      rw [if_neg (by simp), countFrom_cr]
      exact .pure rfl
    rw [if_pos ⟨hcr, by omega⟩]
    refine scan_cases hat rfl (by omega) (fun hgap => ?_) fun gap word hgap hword => ?_
    · have hall := span_eq_incomplete_iff.mp hgap
      rw [if_pos (by omega), countFrom_of_no_cr]
      · exact .pure rfl
      · intro hmem
        exact absurd (hall CR hmem) (by decide)
    rw [if_neg (by omega)]
    obtain ⟨n, x, xs, rfl, rfl, hx, hrest⟩ := Wire.span_space_eq_done_iff.mp hgap
    simp only at hrest
    simp only [List.length_replicate] at hword ⊢
    refine scan_cases hword rfl (by omega) (fun htok => ?_) fun token next htok hnext => ?_
    · have hall := span_eq_incomplete_iff.mp htok
      rw [if_pos (by omega), countFrom_of_no_cr]
      · exact .pure rfl
      · rw [hrest, List.mem_append]
        rintro (hmem | hmem)
        · exact absurd (List.eq_of_mem_replicate hmem) (by decide)
        · exact absurd (hall CR hmem) (by decide)
    rw [if_neg (by omega)]
    obtain ⟨htokrest, -, -, hbytes, hstops⟩ := Wire.span_token_eq_done_iff.mp htok
    simp only at htokrest
    by_cases hempty : token.items = []
    · -- the line ends behind the spaces
      have hdelim := hstops.head x (by rw [← List.nil_append next.rest, ← hempty, ← htokrest]; rfl)
      rcases Wire.isTokenByte_eq_false_iff.mp hdelim with rfl | rfl
      · exact absurd rfl hx
      · rw [if_pos (by simp [hempty]), hrest, countFrom, Wire.countTokens_spaces]
        exact .pure (countFrom_cr count xs).symm
    · have hpos : 0 < token.items.length := List.length_pos_of_ne_nil hempty
      rw [if_neg (by omega), hrest, htokrest, countFrom_token n ⟨hempty, hbytes⟩ hstops]
      refine ih _ _ next ?_ ?_ hnext
      · obtain ⟨stop, tail, hstop, -⟩ := hstops
        simp [hstop]
      · have hlen := congrArg List.length hrest
        have hlen' := congrArg List.length htokrest
        simp only [List.length_append, List.length_cons, List.length_replicate]
          at hlen hlen' hfuel
        omega

theorem exptimeField_simulates (U : CacheUtils) (cls : CommandClass)
    (hat : At m lo hi base 0 args) (hsize : base + size = hi) :
    Simulates m lo hi (fun r read => r.1 = read.1 ∧ At m lo hi base r.2 read.2)
      (RetrievalCommand.exptimeField U cls base size) (Wire.exptimeField U cls args) := by
  unfold RetrievalCommand.exptimeField Wire.exptimeField
  split
  · refine scan_bind hat (by omega) hsize ?_ fun gap word _ hword => ?_
    · rw [returnFalseIf_true (by omega)]
      exact .incomplete
    rw [returnFalseIf_false (by omega)]
    rw [Int.add_zero] at hword
    refine scan_bind hword rfl (by omega) ?_ fun token next htok _ => ?_
    · rw [returnFalseIf_true (by omega)]
      exact .incomplete
    rw [returnFalseIf_false (by omega)]
    refine (throwIf_simulates _ ?_).bind fun _ _ _ _ => ?_
    · rw [← List.length_eq_zero_iff]
      omega
    have htoken := TokenAt.of_span hword htok
    apply (strToLongDirect_simulates U htoken).bind
    rintro exptime _ rfl -
    exact .pure ⟨rfl, htoken.next⟩
  · exact .pure ⟨rfl, hat⟩

theorem keysLoop_simulates (hsize : base + size = hi) (left : Nat) :
    ∀ (i : Nat) (off : Int) (c : Wire.Input), At m lo hi base off c →
      Simulates m lo hi (fun r read => r.1 = read.1 ∧ At m lo hi base r.2 read.2)
        (RetrievalCommand.keysLoop base size left i off) (Wire.keys left i c) := by
  induction left with
  | zero => intro i off c hat; exact .pure ⟨rfl, hat⟩
  | succ left ih =>
    intro i off c hat
    unfold RetrievalCommand.keysLoop Wire.keys
    refine scan_bind hat rfl (by omega) ?_ fun gap word _ hword => ?_
    · rw [returnFalseIf_true (by omega)]
      exact .incomplete
    rw [returnFalseIf_false (by omega)]
    refine (throwIf_simulates _ (by omega)).bind fun _ _ _ _ => ?_
    refine scan_bind hword rfl (by omega) ?_ fun key next htok hnext => ?_
    · rw [returnFalseIf_true (by omega)]
      exact .incomplete
    rw [returnFalseIf_false (by omega)]
    refine (throwIf_simulates _ ?_).bind fun _ _ _ _ => ?_
    · rw [← List.length_eq_zero_iff]
      omega
    apply (ih (i + 1) _ next hnext).bind
    rintro ⟨slices, last⟩ ⟨_, c⟩ ⟨rfl, hlast⟩ -
    have hptr := hword.ptr_eq
    have hkey := (Wire.span_token_eq_done_iff.mp htok).2.1
    refine .pure ⟨?_, hlast⟩
    simp only [List.cons.injEq, Slice.mk.injEq, and_true]
    omega

/-- What is read once the tokens are counted. -/
theorem fields_simulates (U : CacheUtils) (cls : CommandClass)
    (hat : At m lo hi base 0 args) (hsize : base + size = hi) (left : Nat) :
    Simulates m lo hi Eq
      (do let (exptime, stop) ← RetrievalCommand.exptimeField U cls base size
          let (keys, stop) ← RetrievalCommand.keysLoop base size left 0 stop
          let stop ← skipCRLF base size stop "'\r\n' was expected"
          return ({ cls, keys, exptime, consumed := stop } : MemcachedCommand))
      (do let (exptime, c) ← Wire.exptimeField U cls args
          let (keys, c) ← Wire.keys left 0 c
          let c ← Wire.skipCRLF "'\r\n' was expected" c
          return { cls, keys, exptime, consumed := c.ptr - args.ptr }) := by
  have hbase := hat.ptr_eq
  apply (exptimeField_simulates U cls hat hsize).bind
  rintro ⟨exptime, stop⟩ ⟨_, c⟩ ⟨rfl, hexp⟩ -
  apply (keysLoop_simulates hsize left 0 stop c hexp).bind
  rintro ⟨slices, stop⟩ ⟨_, c⟩ ⟨rfl, hkeys⟩ -
  apply (skipCRLF_simulates _ hkeys hsize).bind
  intro stop c hend _
  have hptr := hend.ptr_eq
  rw [show c.ptr - args.ptr = stop by omega]
  exact .pure rfl

/-- The parse of the retrieval commands does not depend on what stands in front of the
arguments. -/
theorem retrieval_simulates (U : CacheUtils) (cls : CommandClass)
    (hat : At m lo hi base 0 args) (hsize : base + size = hi) (hne : args.rest ≠ []) :
    Simulates m lo hi Eq (RetrievalCommand.parse U cls base size)
      (Wire.retrieval U cls args) := by
  have hbase := hat.ptr_eq
  have hends := hat.views.ends
  unfold RetrievalCommand.parse Wire.retrieval
  refine Simulates.rethrow ?_ _
  have hcount := countLoop_simulates m lo hsize (size.toNat + 1) 0 0 args hne (by omega) hat
  apply hcount.step
  unfold countFrom
  cases htokens : Wire.countTokens false args.rest with
  | none =>
    simp only
    rw [returnFalseIf_true (by omega)]
    exact .incomplete
  | some n =>
    simp only
    rw [returnFalseIf_false (by omega)]
    cases htouch : cls.isTouch with
    | false =>
      simp only [Bool.false_eq_true, false_and, if_false]
      rw [if_neg (by omega), show (0 + (n : Int)).toNat = n by omega]
      exact fields_simulates U cls hat hsize n
    | true =>
      simp only [true_and, if_true]
      by_cases hzero : n = 0
      · rw [if_pos hzero, if_pos (by omega)]
        exact .throw _
      · rw [if_neg hzero, if_neg (by omega), show (0 + (n : Int) - 1).toNat = n - 1 by omega]
        exact fields_simulates U cls hat hsize (n - 1)

end Memcarrot.Refinement
