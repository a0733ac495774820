import Mathlib.Data.List.DropRight
import Memcarrot.Util.Decimal

namespace Memcarrot

/-- A string, by its characters. -/
abbrev Text := List Char

namespace Text

def startsWith (s start : Text) : Bool := start.isPrefixOf s

/-- `split(" ")`: empty strings at the end are removed, unless there is no space at all. -/
def split (s : Text) : List Text :=
  let tokens := s.splitOn ' '
  if tokens.length = 1 then tokens else tokens.rdropWhile fun token => token.isEmpty

/-- Tokens without a space are split again where the last is not empty. -/
theorem split_intercalate (tokens : List Text) (last : Text)
    (htokens : ∀ token ∈ tokens ++ [last], ' ' ∉ token) (hlast : last ≠ []) :
    split ([' '].intercalate (tokens ++ [last])) = tokens ++ [last] := by
  have hsplit := List.splitOn_intercalate ' ' htokens (by simp)
  simp only [split, hsplit]
  split_ifs with hone
  · rfl
  · rw [List.rdropWhile_concat_neg]
    simpa using hlast

theorem split_prefix (s : Text) : split s <+: s.splitOn ' ' := by
  simp only [split]
  split_ifs
  · exact List.prefix_rfl
  · exact List.rdropWhile_prefix _ _

/-- The second of three tokens or more stands between two spaces. -/
theorem exists_split_second {word s : Text} (hword : ' ' ∉ word)
    (h : 3 ≤ (split (word ++ ' ' :: s)).length) :
    ∃ more, s = (split (word ++ ' ' :: s)).getD 1 [] ++ ' ' :: more := by
  obtain ⟨tail, htail⟩ := split_prefix (word ++ ' ' :: s)
  rw [List.splitOn_append_cons_self_of_not_mem hword] at htail
  match hsplit : split (word ++ ' ' :: s), h with
  | first :: second :: third :: rest, _ =>
    rw [hsplit] at htail
    obtain ⟨-, hrest⟩ := List.cons.inj htail
    refine ⟨[' '].intercalate (third :: (rest ++ tail)), ?_⟩
    have hjoin : [' '].intercalate (s.splitOn ' ') = s := List.intercalate_splitOn ' '
    rw [← hjoin, ← hrest]
    simp [List.intercalate_cons_cons]

end Text

/-- The character of an ASCII byte. -/
def asciiChar (b : UInt8) : Char := Char.ofNat b.toNat

theorem toNat_asciiChar (b : UInt8) : (asciiChar b).toNat = b.toNat := by
  have hvalid : b.toNat.isValidChar := .inl (by have := b.toNat_lt; omega)
  rw [asciiChar, Char.ofNat, dif_pos hvalid]
  rfl

/-- What Java leaves to the platform: the default charset, an extension of ASCII, in which
`new String` and `getBytes` read and write strings, and the digits of `Character.digit`. -/
structure Platform where
  decode : List UInt8 → Text
  encode : Text → List UInt8
  digit : Char → Option Nat
  decode_nil : decode [] = []
  decode_ascii : ∀ front b back, b.toNat < 128 →
    decode (front ++ b :: back) = decode front ++ asciiChar b :: decode back
  mem_of_ascii : ∀ bytes c, c ∈ decode bytes → c.toNat < 128 → UInt8.ofNat c.toNat ∈ bytes
  digit_ascii : ∀ c : Char, c.toNat < 128 →
    digit c = if c.isDigit then some (c.toNat - '0'.toNat) else none

namespace Platform

/-- The charset ISO_8859_1, with no digits but those of ASCII. -/
def iso88591 : Platform where
  decode := List.map asciiChar
  encode := List.map fun c => if c.toNat < 256 then UInt8.ofNat c.toNat else 0x3F
  digit c := if c.isDigit then some (c.toNat - '0'.toNat) else none
  decode_nil := rfl
  decode_ascii front b back _ := by rw [List.map_append, List.map_cons]
  mem_of_ascii bytes c hc _ := by
    obtain ⟨b, hb, rfl⟩ := List.mem_map.mp hc
    rwa [toNat_asciiChar, UInt8.ofNat_toNat]
  digit_ascii c _ := rfl

variable (P : Platform)

def parseDigits (s : Text) : Option Int :=
  if s = [] then none
  else (s.mapM P.digit).map fun digits => (digits.foldl (fun value d => 10 * value + d) 0 : Nat)

def parseSigned : Text → Option Int
  | [] => none
  | c :: s =>
    if c = '-' then (P.parseDigits s).map (- ·)
    else if c = '+' then P.parseDigits s
    else P.parseDigits (c :: s)

/-- `Integer.parseInt`, `none` where it throws NumberFormatException. -/
def parseInt (s : Text) : Option Int :=
  (P.parseSigned s).filter fun value => -2 ^ 31 ≤ value ∧ value < 2 ^ 31

/-- `Long.parseLong`, `none` where it throws NumberFormatException. -/
def parseLong (s : Text) : Option Int :=
  (P.parseSigned s).filter fun value => -2 ^ 63 ≤ value ∧ value < 2 ^ 63

variable {P}

theorem decode_cons {b : UInt8} (hb : b.toNat < 128) (bytes : List UInt8) :
    P.decode (b :: bytes) = asciiChar b :: P.decode bytes := by
  have h := P.decode_ascii [] b bytes hb
  rwa [P.decode_nil] at h

/-- A string starts with the characters of the ASCII bytes it is read from. -/
theorem decode_append {word : List UInt8} (hword : ∀ b ∈ word, b.toNat < 128)
    (bytes : List UInt8) : P.decode (word ++ bytes) = word.map asciiChar ++ P.decode bytes := by
  induction word with
  | nil => rfl
  | cons b word ih =>
    rw [List.cons_append, decode_cons (hword b List.mem_cons_self),
      ih fun x hx => hword x (List.mem_cons_of_mem _ hx)]
    rfl

theorem decode_eq_map {word : List UInt8} (hword : ∀ b ∈ word, b.toNat < 128) :
    P.decode word = word.map asciiChar := by
  have h := decode_append (P := P) hword []
  rwa [List.append_nil, P.decode_nil, List.append_nil] at h

theorem lt_of_isDigit {b : UInt8} (h : Decimal.isDigit b = true) : b.toNat < 128 := by
  simp only [Decimal.isDigit, Bool.and_eq_true, decide_eq_true_eq, UInt8.le_iff_toNat_le] at h
  have hnine : (0x39 : UInt8).toNat = 57 := rfl
  omega

theorem digit_asciiChar {b : UInt8} (h : Decimal.isDigit b = true) :
    P.digit (asciiChar b) = some (b.toNat - 0x30) := by
  have hascii := lt_of_isDigit h
  rw [P.digit_ascii _ (by rw [toNat_asciiChar]; exact hascii), toNat_asciiChar]
  have hdigit : (asciiChar b).isDigit = true := by
    simp only [Decimal.isDigit, Bool.and_eq_true, decide_eq_true_eq, UInt8.le_iff_toNat_le] at h
    simp only [Char.isDigit, Bool.and_eq_true, decide_eq_true_eq, UInt32.le_iff_toNat_le]
    show 48 ≤ (asciiChar b).toNat ∧ (asciiChar b).toNat ≤ 57
    rw [toNat_asciiChar]
    exact h
  rw [if_pos hdigit]
  rfl

theorem mapM_digit {digits : List UInt8} (h : digits.all Decimal.isDigit = true) :
    (digits.map asciiChar).mapM P.digit = some (digits.map fun b => b.toNat - 0x30) := by
  induction digits with
  | nil => rfl
  | cons b digits ih =>
    rw [List.all_cons, Bool.and_eq_true] at h
    simp only [List.map_cons, List.mapM_cons, digit_asciiChar h.1, ih h.2]
    rfl

/-- Digits are read as the number they stand for. -/
theorem parseDigits_map {digits : List UInt8} (hne : digits ≠ [])
    (hdigits : digits.all Decimal.isDigit = true) :
    P.parseDigits (digits.map asciiChar) = some (Decimal.valueOfDigits 0 digits : Int) := by
  rw [parseDigits, if_neg (by simpa using hne), mapM_digit hdigits, Option.map_some,
    List.foldl_map]
  rfl

theorem parseSigned_map {digits : List UInt8} (hne : digits ≠ [])
    (hdigits : digits.all Decimal.isDigit = true) :
    P.parseSigned (digits.map asciiChar) = some (Decimal.valueOfDigits 0 digits : Int) := by
  cases digits with
  | nil => exact absurd rfl hne
  | cons b digits =>
    have hb : Decimal.isDigit b = true := by
      rw [List.all_cons, Bool.and_eq_true] at hdigits
      exact hdigits.1
    have hsign (c : Char) (hc : c.isDigit = false) : asciiChar b ≠ c := by
      rintro rfl
      have hascii := lt_of_isDigit hb
      have h := digit_asciiChar (P := iso88591) hb
      rw [iso88591.digit_ascii _ (by rw [toNat_asciiChar]; exact hascii), hc] at h
      cases h
    rw [List.map_cons, parseSigned, if_neg (hsign '-' rfl), if_neg (hsign '+' rfl), ← List.map_cons]
    exact parseDigits_map hne hdigits

/-- A string that starts with a letter is no number. -/
theorem parseSigned_eq_none {c : Char} (s : Text) (hascii : c.toNat < 128)
    (hletter : '9'.toNat < c.toNat) : P.parseSigned (c :: s) = none := by
  have hdigit : P.digit c = none := by
    rw [P.digit_ascii c hascii, if_neg]
    simp only [Char.isDigit, Bool.and_eq_true, decide_eq_true_eq, UInt32.le_iff_toNat_le, not_and,
      not_le]
    exact fun _ => hletter
  have hne {sign : Char} (hsign : sign.toNat ≤ '9'.toNat) : c ≠ sign := by
    rintro rfl
    omega
  rw [parseSigned, if_neg (hne (by decide)), if_neg (hne (by decide)), parseDigits,
    if_neg (by simp), List.mapM_cons, hdigit]
  rfl

theorem ascii_toString {value : Int} {b : UInt8} (h : b ∈ Decimal.toString value) :
    b.toNat < 128 := by
  rcases Decimal.eq_minus_or_isDigit h with rfl | hdigit
  · decide
  · exact lt_of_isDigit hdigit

/-- A printed number is read back. -/
theorem parseSigned_toString (value : Int) :
    P.parseSigned (P.decode (Decimal.toString value)) = some value := by
  rw [decode_eq_map fun b => ascii_toString]
  obtain ⟨digits, hdigits, hne, hall, hvalue⟩ := Decimal.exists_digits value.natAbs
  rw [Decimal.toString, ← hdigits]
  by_cases hneg : value < 0
  · rw [if_pos hneg, List.map_cons, parseSigned, if_pos (by decide), parseDigits_map hne hall,
      hvalue, Option.map_some, Option.some.injEq]
    omega
  · rw [if_neg hneg, parseSigned_map hne hall, hvalue, Option.some.injEq]
    omega

theorem parseInt_toString {value : Int} (hlo : -2 ^ 31 ≤ value) (hhi : value < 2 ^ 31) :
    P.parseInt (P.decode (Decimal.toString value)) = some value := by
  have hrange : decide (-2 ^ 31 ≤ value ∧ value < 2 ^ 31) = true := decide_eq_true ⟨hlo, hhi⟩
  rw [parseInt, parseSigned_toString, Option.filter_some, if_pos hrange]

theorem parseLong_toString {value : Int} (hlo : -2 ^ 63 ≤ value) (hhi : value < 2 ^ 63) :
    P.parseLong (P.decode (Decimal.toString value)) = some value := by
  have hrange : decide (-2 ^ 63 ≤ value ∧ value < 2 ^ 63) = true := decide_eq_true ⟨hlo, hhi⟩
  rw [parseLong, parseSigned_toString, Option.filter_some, if_pos hrange]

/-- A byte of ASCII that is not among the bytes of a string is not among its characters. -/
theorem asciiChar_not_mem {b : UInt8} {bytes : List UInt8} (hb : b.toNat < 128) (h : b ∉ bytes) :
    asciiChar b ∉ P.decode bytes := by
  intro hmem
  have hbyte := P.mem_of_ascii bytes _ hmem (by rwa [toNat_asciiChar])
  rw [toNat_asciiChar, UInt8.ofNat_toNat] at hbyte
  exact h hbyte

end Platform

end Memcarrot
