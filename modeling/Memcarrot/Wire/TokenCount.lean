import Memcarrot.Wire.Commands
import Memcarrot.Wire.FieldForms

open Incremental

namespace Memcarrot.Wire

/-- Tokens are counted once the CR that ends the line has been received. -/
theorem countTokens_eq_none_iff {inToken : Bool} {s : List UInt8} :
    countTokens inToken s = none ↔ CR ∉ s := by
  induction s generalizing inToken with
  | nil => simp [countTokens]
  | cons b bs ih =>
    unfold countTokens
    by_cases hcr : b = CR
    · simp [hcr]
    · have hne : CR ≠ b := Ne.symm hcr
      rw [if_neg hcr]
      by_cases hsp : b = SP
      · rw [if_pos hsp, ih]
        simp [hne]
      · rw [if_neg hsp]
        cases inToken <;> simp [ih, hne]

theorem countTokens_spaces (n : Nat) (s : List UInt8) :
    countTokens false (List.replicate n SP ++ s) = countTokens false s := by
  induction n with
  | zero => rfl
  | succ n ih =>
    rw [List.replicate_succ, List.cons_append, countTokens, if_neg (by decide), if_pos rfl]
    exact ih

theorem countTokens_inside {t s : List UInt8} (h : ∀ b ∈ t, isTokenByte b = true) :
    countTokens true (t ++ s) = countTokens true s := by
  induction t with
  | nil => rfl
  | cons b bs ih =>
    obtain ⟨hsp, hcr⟩ := isTokenByte_eq_true_iff.mp (h b (by simp))
    rw [List.cons_append, countTokens, if_neg hcr, if_neg hsp, if_pos rfl]
    exact ih fun x hx => h x (by simp [hx])

theorem countTokens_stops {s : List UInt8} (h : Stops s) :
    countTokens true s = countTokens false s := by
  obtain ⟨b, bs, rfl, hb⟩ := h
  rcases isTokenByte_eq_false_iff.mp hb with rfl | rfl <;> rfl

theorem countTokens_token {t s : List UInt8} (ht : IsToken t) (hs : Stops s) :
    countTokens false (t ++ s) = (countTokens false s).map (· + 1) := by
  obtain ⟨b, bs, rfl, hsp, hcr⟩ := ht.head
  rw [List.cons_append, countTokens, if_neg hcr, if_neg hsp,
    if_neg (by simp), countTokens_inside fun x hx => ht.bytes x (by simp [hx]),
    countTokens_stops hs]

end Memcarrot.Wire
