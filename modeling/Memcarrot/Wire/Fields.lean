import Memcarrot.Commands.Fields

open Incremental RawMemory

namespace Memcarrot.Wire

/-- The bytes received from some address on, as the parsers of this level see them. -/
abbrev Input := Cursor UInt8

abbrev Token := Chunk UInt8

def incompleteIf (condition : Prop) [Decidable condition] : Verdict Thrown Unit :=
  if condition then .incomplete else .done ()

def failIf (condition : Prop) [Decidable condition] (msg : String) : Verdict Thrown Unit :=
  if condition then .failed (.illegalFormat msg) else .done ()

/-- A token at the beginning of the arguments. -/
def keyField (c : Input) : Verdict Thrown (Token × Input) := do
  let (key, c) ← span isTokenByte c
  incompleteIf (key.items = [])
  return (key, c)

/-- One space and a token. A line that ends before the token is taken as incomplete. -/
def nextField (msg : String) (c : Input) : Verdict Thrown (Token × Input) := do
  let (gap, c) ← span isSpace c
  incompleteIf (gap.items = [])
  failIf (gap.items.length ≠ 1) msg
  let (token, c) ← span isTokenByte c
  incompleteIf (token.items = [])
  return (token, c)

def number (U : CacheUtils) (token : Token) : Verdict Thrown Int :=
  match U.strToLongDirect token.items with
  | some value => .done value
  | none => .failed .numberFormat

/-- Whether the input `word` begins with noreply. If not, the line is read on from `back`. -/
def checkNoreply (word back : Input) : Verdict Thrown (Bool × Input) :=
  if word.rest.head? = some LOWER_N then
    if 9 ≤ word.rest.length then
      if word.rest.take 7 = NOREPLY then .done (true, ⟨word.ptr + 7, word.rest.drop 7⟩)
      else .done (false, back)
    else .incomplete
  else .done (false, back)

def noreplyField (c : Input) : Verdict Thrown (Bool × Input) := do
  let (_, word) ← span isSpace c
  checkNoreply word c

def skipCRLF (msg : String) (c : Input) : Verdict Thrown Input :=
  match c.rest with
  | first :: second :: rest => do
    failIf (first ≠ CR) msg
    failIf (second ≠ LF) msg
    return ⟨c.ptr + 2, rest⟩
  | _ => .incomplete

def lineEnd (msg : String) (c : Input) : Verdict Thrown (Bool × Input) := do
  let (noreply, c) ← noreplyField c
  let c ← skipCRLF msg c
  return (noreply, c)

/-- A non-empty run of bytes other than space and CR. -/
structure IsToken (t : List UInt8) : Prop where
  nonempty : t ≠ []
  bytes : ∀ b ∈ t, isTokenByte b = true

/-- Input that begins with a byte at which a token ends. -/
def Stops (s : List UInt8) : Prop := ∃ stop rest, s = stop :: rest ∧ isTokenByte stop = false

instance (t : List UInt8) : Decidable (IsToken t) :=
  decidable_of_iff (t ≠ [] ∧ t.all isTokenByte = true)
    ⟨fun h => ⟨h.1, List.all_eq_true.mp h.2⟩, fun h => ⟨h.1, List.all_eq_true.mpr h.2⟩⟩

theorem isTokenByte_eq_false_iff {b : UInt8} : isTokenByte b = false ↔ b = SP ∨ b = CR := by
  simp only [isTokenByte, bne, Bool.and_eq_false_iff, Bool.not_eq_false', beq_iff_eq]

theorem isTokenByte_eq_true_iff {b : UInt8} : isTokenByte b = true ↔ b ≠ SP ∧ b ≠ CR := by
  simp [isTokenByte]

@[simp] theorem isSpace_eq_true_iff {b : UInt8} : isSpace b = true ↔ b = SP := by
  simp [isSpace]

@[simp] theorem isSpace_eq_false_iff {b : UInt8} : isSpace b = false ↔ b ≠ SP := by
  simp [isSpace]

theorem stops_space (s : List UInt8) : Stops (SP :: s) := ⟨SP, s, rfl, by decide⟩

theorem stops_cr (s : List UInt8) : Stops (CR :: s) := ⟨CR, s, rfl, by decide⟩

theorem IsToken.head {t : List UInt8} (h : IsToken t) :
    ∃ b rest, t = b :: rest ∧ b ≠ SP ∧ b ≠ CR := by
  obtain ⟨hne, hbytes⟩ := h
  cases t with
  | nil => exact absurd rfl hne
  | cons b rest =>
    have hb := isTokenByte_eq_true_iff.mp (hbytes b (by simp))
    exact ⟨b, rest, rfl, hb.1, hb.2⟩

end Memcarrot.Wire
