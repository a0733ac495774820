import Mathlib.Data.List.Forall2
import Memcarrot.Wire.Commands
import Memcarrot.Wire.FieldForms

open Incremental

namespace Memcarrot.Wire

/-- A number as it is written in a request. -/
structure Number (U : CacheUtils) where
  token : List UInt8
  value : Int
  isToken : IsToken token
  value_eq : U.strToLongDirect token = some value

/-- A non-empty key without space and CR. -/
abbrev Key := { key : List UInt8 // IsToken key }

/-- Numbers that follow a key, each behind one space. -/
def fieldsBytes {U : CacheUtils} (numbers : List (Number U)) : List UInt8 :=
  numbers.flatMap fun number => SP :: number.token

@[simp] theorem fieldsBytes_nil {U : CacheUtils} : fieldsBytes ([] : List (Number U)) = [] := rfl

@[simp] theorem fieldsBytes_cons {U : CacheUtils} (number : Number U) (numbers : List (Number U)) :
    fieldsBytes (number :: numbers) = SP :: (number.token ++ fieldsBytes numbers) := by
  simp [fieldsBytes]

theorem lineEndBytes_stops (gap : Option Nat) (s : List UInt8) : Stops (lineEndBytes gap ++ s) := by
  cases gap with
  | none => exact stops_cr _
  | some extra =>
    rw [lineEndBytes, List.replicate_succ]
    exact stops_space _

theorem fieldsBytes_stops {U : CacheUtils} {s : List UInt8} (numbers : List (Number U))
    (hs : Stops s) : Stops (fieldsBytes numbers ++ s) := by
  cases numbers with
  | nil => exact hs
  | cons number numbers =>
    rw [fieldsBytes_cons]
    exact stops_space _

theorem number_eq_done_iff {U : CacheUtils} {token : Token} {value : Int} :
    number U token = .done value ↔ U.strToLongDirect token.items = some value := by
  unfold number
  cases U.strToLongDirect token.items <;> simp

@[simp] theorem number_eq {U : CacheUtils} (ptr : Int) (n : Number U) :
    number U ⟨ptr, n.token⟩ = .done n.value :=
  number_eq_done_iff.mpr n.value_eq

theorem number_ne_incomplete {U : CacheUtils} {token : Token} :
    number U token ≠ .incomplete := by
  unfold number
  cases U.strToLongDirect token.items <;> simp

/-- A number field of a command line: the message for a line that is not separated by one space,
and the values that are refused, each with its message. -/
structure FieldSpec where
  msg : String
  refuse : Int → Option String

def refuseIf : Option String → Verdict Thrown Unit
  | none => .done ()
  | some msg => .failed (.illegalFormat msg)

@[simp] theorem refuseIf_eq_done_iff {refused : Option String} {u : Unit} :
    refuseIf refused = .done u ↔ refused = none := by
  cases refused <;> simp [refuseIf]

@[simp] theorem refuseIf_ne_incomplete {refused : Option String} :
    refuseIf refused ≠ .incomplete := by
  cases refused <;> simp [refuseIf]

def field (U : CacheUtils) (spec : FieldSpec) (c : Input) : Verdict Thrown (Int × Input) := do
  let (token, c) ← nextField spec.msg c
  let value ← number U token
  refuseIf (spec.refuse value)
  return (value, c)

def fields (U : CacheUtils) : List FieldSpec → Input → Verdict Thrown (List Int × Input)
  | [], c => return ([], c)
  | spec :: specs, c => do
    let (value, c) ← field U spec c
    let (values, c) ← fields U specs c
    return (value :: values, c)

/-- A command line with a key, some numbers and noreply. -/
def line (U : CacheUtils) (specs : List FieldSpec) (msg : String) (args : Input) :
    Verdict Thrown (Token × List Int × Bool × Input) := do
  let (key, c) ← keyField args
  let (values, c) ← fields U specs c
  let (noreply, c) ← lineEnd msg c
  return (key, values, noreply, c)

/-- Numbers that stand where the fields are expected and are not refused. -/
def Fills {U : CacheUtils} (specs : List FieldSpec) (numbers : List (Number U)) : Prop :=
  List.Forall₂ (fun spec number => spec.refuse number.value = none) specs numbers

section Done

variable {U : CacheUtils} {spec : FieldSpec} {specs : List FieldSpec} {msg : String}

theorem field_eq_done_iff {c next : Input} {value : Int} :
    field U spec c = .done (value, next) ↔
      ∃ n : Number U, spec.refuse n.value = none ∧ value = n.value ∧
        c.rest = SP :: (n.token ++ next.rest) ∧ next.ptr = c.ptr + 1 + n.token.length ∧
        Stops next.rest := by
  simp only [field, Verdict.bind_eq_done_iff, refuseIf_eq_done_iff, exists_const, Prod.exists,
    Verdict.pure_eq_done, Verdict.done.injEq, Prod.mk.injEq]
  constructor
  · rintro ⟨token, next, hfield, value, hvalue, hrefuse, rfl, rfl⟩
    obtain ⟨hrest, hptr, hnext, htoken, hstop⟩ := nextField_eq_done_iff.mp hfield
    exact ⟨⟨token.items, value, htoken, number_eq_done_iff.mp hvalue⟩, hrefuse, rfl, hrest,
      by rw [hnext, hptr], hstop⟩
  · rintro ⟨n, hrefuse, rfl, hrest, hnext, hstop⟩
    exact ⟨⟨c.ptr + 1, n.token⟩, next,
      nextField_eq_done_iff.mpr ⟨hrest, rfl, hnext, n.isToken, hstop⟩, n.value,
      number_eq_done_iff.mpr n.value_eq, hrefuse, rfl, rfl⟩

theorem fields_eq_done_iff {c next : Input} {values : List Int} (hstop : Stops c.rest) :
    fields U specs c = .done (values, next) ↔
      ∃ numbers : List (Number U), Fills specs numbers ∧ values = numbers.map Number.value ∧
        c.rest = fieldsBytes numbers ++ next.rest ∧
        next.ptr = c.ptr + (fieldsBytes numbers).length ∧ Stops next.rest := by
  induction specs generalizing c values with
  | nil =>
    obtain ⟨ptr, rest⟩ := c
    obtain ⟨nextPtr, nextRest⟩ := next
    simp only [fields, Verdict.pure_eq_done, Verdict.done.injEq, Prod.mk.injEq, Cursor.mk.injEq]
    constructor
    · rintro ⟨rfl, rfl, rfl⟩
      exact ⟨[], .nil, rfl, rfl, by simp, hstop⟩
    · rintro ⟨numbers, hfills, rfl, hrest, hptr, -⟩
      cases hfills
      exact ⟨rfl, by simpa using hptr.symm, hrest⟩
  | cons spec specs ih =>
    simp only [fields, Verdict.bind_eq_done_iff, Prod.exists, Verdict.pure_eq_done,
      Verdict.done.injEq, Prod.mk.injEq]
    constructor
    · rintro ⟨value, c', hfield, values, next, hfields, rfl, rfl⟩
      obtain ⟨n, hrefuse, rfl, hrest, hptr, hstop'⟩ := field_eq_done_iff.mp hfield
      obtain ⟨numbers, hfills, rfl, hrest', hptr', hnext⟩ := (ih hstop').mp hfields
      refine ⟨n :: numbers, .cons hrefuse hfills, rfl, ?_, ?_, hnext⟩
      · rw [hrest, hrest']
        simp
      · simp only [fieldsBytes_cons, List.length_cons, List.length_append]
        omega
    · rintro ⟨numbers, hfills, rfl, hrest, hptr, hnext⟩
      cases hfills with
      | @cons _ n _ numbers hrefuse hfills =>
        have hstop' := fieldsBytes_stops numbers hnext
        simp only [fieldsBytes_cons, List.length_cons, List.length_append, List.cons_append,
          List.append_assoc] at hrest hptr
        refine ⟨n.value, ⟨c.ptr + 1 + n.token.length, fieldsBytes numbers ++ next.rest⟩,
          field_eq_done_iff.mpr ⟨n, hrefuse, rfl, hrest, rfl, hstop'⟩, numbers.map Number.value,
          next, (ih hstop').mpr ⟨numbers, hfills, rfl, rfl, ?_, hnext⟩, rfl, rfl⟩
        simp only
        omega

/-- The lines that are read: a key, the numbers and the end of the line. -/
theorem line_eq_done_iff {args next : Input} {key : Token} {values : List Int} {noreply : Bool} :
    line U specs msg args = .done (key, values, noreply, next) ↔
      ∃ (k : Key) (numbers : List (Number U)) (gap : Option Nat), Fills specs numbers ∧
        key = ⟨args.ptr, k.1⟩ ∧ values = numbers.map Number.value ∧ noreply = gap.isSome ∧
        args.rest = k.1 ++ (fieldsBytes numbers ++ (lineEndBytes gap ++ next.rest)) ∧
        next.ptr = args.ptr + (k.1 ++ (fieldsBytes numbers ++ lineEndBytes gap)).length := by
  simp only [line, Verdict.bind_eq_done_iff, Prod.exists, Verdict.pure_eq_done,
    Verdict.done.injEq, Prod.mk.injEq]
  constructor
  · rintro ⟨key, c0, hkey, values, c1, hfields, noreply, next, hend, rfl, rfl, rfl, rfl⟩
    obtain ⟨hrest0, hptr0, hnext0, htoken, hstop0⟩ := keyField_eq_done_iff.mp hkey
    obtain ⟨numbers, hfills, rfl, hrest1, hnext1, hstop1⟩ := (fields_eq_done_iff hstop0).mp hfields
    obtain ⟨gap, rfl, hrest2, hnext2⟩ := (lineEnd_eq_done_iff hstop1).mp hend
    refine ⟨⟨key.items, htoken⟩, numbers, gap, hfills, ?_, rfl, rfl, ?_, ?_⟩
    · rw [← hptr0]
    · rw [hrest0, hrest1, hrest2]
    · simp only [List.length_append]
      omega
  · rintro ⟨k, numbers, gap, hfills, rfl, rfl, rfl, hrest, hptr⟩
    have hend := lineEndBytes_stops gap next.rest
    have hfields := fieldsBytes_stops numbers hend
    simp only [List.length_append] at hptr
    refine ⟨_, ⟨args.ptr + k.1.length, _⟩,
      keyField_eq_done_iff.mpr ⟨hrest, rfl, rfl, k.2, hfields⟩, _,
      ⟨args.ptr + k.1.length + (fieldsBytes numbers).length, _⟩,
      (fields_eq_done_iff hfields).mpr ⟨numbers, hfills, rfl, rfl, rfl, hend⟩, _, next,
      (lineEnd_eq_done_iff hend).mpr ⟨gap, rfl, rfl, ?_⟩, rfl, rfl, rfl, rfl⟩
    simp only
    omega

end Done

end Memcarrot.Wire
