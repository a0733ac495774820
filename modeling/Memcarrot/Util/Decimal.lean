import Memcarrot.Util.Utils

namespace Memcarrot

namespace Decimal

def isDigit (b : UInt8) : Bool := 0x30 ≤ b && b ≤ 0x39

def MINUS : UInt8 := 0x2D

/-- The bytes of `Long.toString` and `Integer.toString`. -/
def toString (value : Int) : List UInt8 :=
  let digits := (Nat.toDigits 10 value.natAbs).map fun c => UInt8.ofNat c.toNat
  if value < 0 then MINUS :: digits else digits

def valueOfDigits (value : Nat) (digits : List UInt8) : Nat :=
  digits.foldl (fun value b => 10 * value + (b.toNat - 0x30)) value

def parseDigits (digits : List UInt8) : Option Int :=
  if digits ≠ [] ∧ digits.all isDigit then some (valueOfDigits 0 digits) else none

def parseSigned : List UInt8 → Option Int
  | [] => none
  | b :: bs => if b = MINUS then (parseDigits bs).map (- ·) else parseDigits (b :: bs)

/-- A decimal number in the range of a long. -/
def parseLong (token : List UInt8) : Option Int :=
  (parseSigned token).filter fun value => -2 ^ 63 ≤ value ∧ value < 2 ^ 63

/-- The order of two byte ranges, the first of which differs first. -/
def compareBytes : List UInt8 → List UInt8 → Int
  | [], [] => 0
  | [], _ :: _ => -1
  | _ :: _, [] => 1
  | x :: xs, y :: ys => if x = y then compareBytes xs ys else x.toNat - y.toNat

theorem compareBytes_eq_zero_iff (left right : List UInt8) :
    compareBytes left right = 0 ↔ left = right := by
  induction left generalizing right with
  | nil => cases right <;> simp [compareBytes]
  | cons x xs ih =>
    cases right with
    | nil => simp [compareBytes]
    | cons y ys =>
      by_cases hxy : x = y
      · simp [compareBytes, hxy, ih]
      · have hne : x.toNat ≠ y.toNat := fun h => hxy (UInt8.toNat_inj.mp h)
        rw [compareBytes, if_neg hxy, List.cons.injEq]
        refine ⟨fun h => absurd h (by omega), fun h => absurd h.1 hxy⟩

end Decimal

/-- The helpers of the cache library on plain decimal numbers. -/
def decimalUtils : CacheUtils where
  compareTo := Decimal.compareBytes
  compareTo_eq_zero_iff left right _ := Decimal.compareBytes_eq_zero_iff left right
  strToLongDirect := Decimal.parseLong
  longToStrDirect := Decimal.toString
  strToLongDirect_long token value h := by
    have hrange := (Option.filter_eq_some_iff.mp h).2
    simpa using hrange

namespace Decimal

theorem toNat_ofNat_char {c : Char} (h : c.isDigit = true) :
    (UInt8.ofNat c.toNat).toNat = c.toNat ∧ 48 ≤ c.toNat ∧ c.toNat ≤ 57 := by
  have hrange : 48 ≤ c.toNat ∧ c.toNat ≤ 57 := by
    simp only [Char.isDigit, Bool.and_eq_true, decide_eq_true_eq, UInt32.le_iff_toNat_le] at h
    exact h
  refine ⟨?_, hrange⟩
  rw [UInt8.toNat_ofNat']
  omega

theorem isDigit_digits {n : Nat} {b : UInt8}
    (h : b ∈ (Nat.toDigits 10 n).map fun c => UInt8.ofNat c.toNat) : isDigit b = true := by
  obtain ⟨c, hc, rfl⟩ := List.mem_map.mp h
  obtain ⟨heq, hlo, hhi⟩ :=
    toNat_ofNat_char (Nat.isDigit_of_mem_toDigits (by decide) (by decide) hc)
  simp only [isDigit, UInt8.le_iff_toNat_le, heq, Bool.and_eq_true, decide_eq_true_eq]
  exact ⟨hlo, hhi⟩

theorem toString_ne_nil (value : Int) : toString value ≠ [] := by
  unfold toString
  split <;> simp [Nat.toDigits_ne_nil]

theorem eq_minus_or_isDigit {value : Int} {b : UInt8} (h : b ∈ toString value) :
    b = MINUS ∨ isDigit b = true := by
  unfold toString at h
  split at h
  · rcases List.mem_cons.mp h with rfl | h
    · exact .inl rfl
    · exact .inr (isDigit_digits h)
  · exact .inr (isDigit_digits h)

theorem isTokenByte_toString {value : Int} {b : UInt8} (h : b ∈ toString value) :
    isTokenByte b = true := by
  rcases eq_minus_or_isDigit h with rfl | hdigit
  · decide
  · simp only [isDigit, Bool.and_eq_true, decide_eq_true_eq, UInt8.le_iff_toNat_le] at hdigit
    simp only [isTokenByte, SP, CR, bne_iff_ne, ne_eq, Bool.and_eq_true]
    refine ⟨?_, ?_⟩ <;> (rintro rfl; simp at hdigit)

theorem valueOfDigits_map {cs : List Char} (hcs : ∀ c ∈ cs, c.isDigit = true) (value : Nat) :
    valueOfDigits value (cs.map fun c => UInt8.ofNat c.toNat) = Nat.ofDigitChars 10 cs value := by
  induction cs generalizing value with
  | nil => simp [valueOfDigits]
  | cons c cs ih =>
    have hc := (toNat_ofNat_char (hcs c (by simp))).1
    have ih := ih (fun x hx => hcs x (by simp [hx])) (10 * value + (c.toNat - '0'.toNat))
    rw [Nat.ofDigitChars_cons, ← ih, valueOfDigits, List.map_cons, List.foldl_cons, hc]
    rfl

/-- The digits of a number. -/
theorem exists_digits (n : Nat) : ∃ digits,
    digits = (Nat.toDigits 10 n).map (fun c => UInt8.ofNat c.toNat) ∧ digits ≠ [] ∧
      digits.all isDigit = true ∧ valueOfDigits 0 digits = n := by
  refine ⟨_, rfl, by simp [Nat.toDigits_ne_nil], List.all_eq_true.mpr fun b => isDigit_digits, ?_⟩
  have hdigits (c : Char) (hc : c ∈ Nat.toDigits 10 n) : c.isDigit = true :=
    Nat.isDigit_of_mem_toDigits (by decide) (by decide) hc
  rw [valueOfDigits_map hdigits, Nat.ofDigitChars_ten_toDigits]

theorem parseDigits_toDigits (n : Nat) :
    parseDigits ((Nat.toDigits 10 n).map fun c => UInt8.ofNat c.toNat) = some (n : Int) := by
  obtain ⟨digits, hdigits, hne, hall, hvalue⟩ := exists_digits n
  rw [← hdigits, parseDigits, if_pos ⟨hne, hall⟩, hvalue]

/-- A long is read back from its decimal digits. -/
theorem parseLong_toString {value : Int} (hlo : -2 ^ 63 ≤ value) (hhi : value < 2 ^ 63) :
    parseLong (toString value) = some value := by
  have hsigned : parseSigned (toString value) = some value := by
    unfold toString
    by_cases hneg : value < 0
    · rw [if_pos hneg, parseSigned, if_pos rfl, parseDigits_toDigits]
      simp only [Option.map_some, Option.some.injEq]
      omega
    · rw [if_neg hneg]
      have hdigits := parseDigits_toDigits value.natAbs
      cases hds : (Nat.toDigits 10 value.natAbs).map (fun c => UInt8.ofNat c.toNat) with
      | nil => simp [Nat.toDigits_ne_nil] at hds
      | cons d ds =>
        have hminus : d ≠ MINUS := by
          rintro rfl
          have hdigit : isDigit MINUS = true := isDigit_digits (n := value.natAbs) (by simp [hds])
          exact absurd hdigit (by decide)
        rw [parseSigned, if_neg hminus, ← hds, hdigits]
        simp only [Option.some.injEq]
        omega
  rw [parseLong, hsigned, Option.filter_some, if_pos (by simp only [decide_eq_true_eq]; omega)]

end Decimal

end Memcarrot
