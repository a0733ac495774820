import Memcarrot.Wire.Lines
import Memcarrot.Wire.Opening

open Incremental

namespace Memcarrot.Wire

/-- The numbers of a storage line. -/
def storageSpecs (cls : CommandClass) : List FieldSpec :=
  { msg := "1 malformed request"
    refuse := fun flags =>
      if flags > 0xffffffff ∨ flags < 0 then some "flags is not 32 - bit unsigned" else none } ::
  { msg := "2 malformed request", refuse := fun _ => none } ::
  { msg := "3 malformed request"
    refuse := fun valSize =>
      if valSize > 2 ^ 31 - 1 ∨ valSize < 0 then some ("illegal value size: " ++ toString valSize)
      else none } ::
  if cls.isCAS then [{ msg := "4 malformed request", refuse := fun _ => none }] else []

/-- What a storage command does behind its line. -/
def storageBlock (cls : CommandClass) (args : Input) :
    Token × List Int × Bool × Input → Verdict Thrown MemcachedCommand
  | (key, values, noreply, c) => do
    let valSize := values.getD 2 0
    incompleteIf (valSize > c.rest.length - 2)
    return { cls, keyPtr := key.ptr, keySize := key.items.length, valPtr := c.ptr, valSize,
             flags := values.getD 0 0, exptime := values.getD 1 0, cas := values.getD 3 0, noreply,
             consumed := valSize + (c.ptr - args.ptr) + 2 }

/-- The number of incr, decr and touch. -/
def numberSpecs : List FieldSpec := [{ msg := "malformed request", refuse := fun _ => none }]

theorem failIf_eq_refuseIf (condition : Prop) [Decidable condition] (msg : String) :
    failIf condition msg = refuseIf (if condition then some msg else none) := by
  unfold failIf
  split <;> rfl

@[simp] theorem refuseIf_none : refuseIf none = .done () := rfl

theorem storage_eq_line (U : CacheUtils) (cls : CommandClass) (args : Input) :
    storage U cls args = Verdict.rethrow (catchNumberFormat "not a number")
      (line U (storageSpecs cls) "'\\r\\n' was expected" args >>= storageBlock cls args) := by
  unfold storage line storageSpecs casField
  simp only [fields, field, Verdict.bind_assoc, failIf_eq_refuseIf]
  cases cls.isCAS with
  | true =>
    simp only [fields, field, Verdict.bind_assoc, Verdict.pure_eq_done, Verdict.done_bind,
      if_true, refuseIf_none, storageBlock]
    rfl
  | false =>
    simp only [fields, Verdict.pure_eq_done, Verdict.done_bind, Bool.false_eq_true, if_false,
      refuseIf_none, storageBlock]
    rfl

theorem keyNumber_eq_line (U : CacheUtils) (msg : String)
    (command : Int → Int → Int → Bool → Int → MemcachedCommand) (args : Input) :
    keyNumber U msg command args = Verdict.rethrow (catchNumberFormat "not a number")
      (line U numberSpecs msg args >>= fun (key, values, noreply, c) =>
        .done (command key.ptr key.items.length (values.getD 0 0) noreply (c.ptr - args.ptr))) := by
  unfold keyNumber line numberSpecs
  simp only [fields, field, Verdict.bind_assoc, Verdict.pure_eq_done, Verdict.done_bind,
    refuseIf_none]
  rfl

theorem delete_eq_line (U : CacheUtils) (args : Input) :
    delete args = line U [] "'\r\n' was expected" args >>= fun (key, _, noreply, c) =>
      .done { cls := .DELETE, keyPtr := key.ptr, keySize := key.items.length, noreply,
              consumed := c.ptr - args.ptr } := by
  unfold delete line
  simp only [fields, Verdict.bind_assoc, Verdict.pure_eq_done, Verdict.done_bind]

/-- A storage command with its header line and its data block. The block is as long as the line
says and closed by two bytes, whatever they are. -/
structure StorageRequest (U : CacheUtils) where
  cls : CommandClass
  key : Key
  flags : Number U
  exptime : Number U
  size : Number U
  cas : Option (Number U)
  gap : Option Nat
  block : List UInt8
  isStorage : cls.isStorage = true
  cas_isSome : cas.isSome = cls.isCAS
  flags_range : 0 ≤ flags.value ∧ flags.value ≤ 0xffffffff
  size_range : 0 ≤ size.value ∧ size.value ≤ 2 ^ 31 - 1
  block_length : (block.length : Int) = size.value + 2

namespace StorageRequest

variable {U : CacheUtils}

def numbers (r : StorageRequest U) : List (Number U) :=
  r.flags :: r.exptime :: r.size :: r.cas.toList

/-- The header line behind the command word and its space. -/
def header (r : StorageRequest U) : List UInt8 :=
  r.key.1 ++ (fieldsBytes r.numbers ++ lineEndBytes r.gap)

def bytes (r : StorageRequest U) : List UInt8 :=
  r.cls.word ++ SP :: (r.header ++ r.block)

/-- The command object for the request at the address `buf`. -/
def command (r : StorageRequest U) (buf : Int) : MemcachedCommand :=
  { cls := r.cls
    keyPtr := buf + r.cls.word.length + 1
    keySize := r.key.1.length
    valPtr := buf + r.cls.word.length + 1 + r.header.length
    valSize := r.size.value
    flags := r.flags.value
    exptime := r.exptime.value
    cas := r.cas.elim 0 Number.value
    noreply := r.gap.isSome
    consumed := r.header.length + r.block.length }

end StorageRequest

/-- incr, decr or touch. -/
structure KeyNumberRequest (U : CacheUtils) where
  cls : CommandClass
  key : Key
  number : Number U
  gap : Option Nat
  isKeyNumber : cls = .INCR ∨ cls = .DECR ∨ cls = .TOUCH

namespace KeyNumberRequest

variable {U : CacheUtils}

def header (r : KeyNumberRequest U) : List UInt8 :=
  r.key.1 ++ (fieldsBytes [r.number] ++ lineEndBytes r.gap)

def bytes (r : KeyNumberRequest U) : List UInt8 := r.cls.word ++ SP :: r.header

def command (r : KeyNumberRequest U) (buf : Int) : MemcachedCommand :=
  { cls := r.cls
    keyPtr := buf + r.cls.word.length + 1
    keySize := r.key.1.length
    value := if r.cls = .TOUCH then 0 else r.number.value
    exptime := if r.cls = .TOUCH then r.number.value else 0
    noreply := r.gap.isSome
    consumed := r.header.length }

end KeyNumberRequest

structure DeleteRequest where
  key : Key
  gap : Option Nat

namespace DeleteRequest

def header (r : DeleteRequest) : List UInt8 := r.key.1 ++ lineEndBytes r.gap

def bytes (r : DeleteRequest) : List UInt8 := CommandClass.DELETE.word ++ SP :: r.header

def command (r : DeleteRequest) (buf : Int) : MemcachedCommand :=
  { cls := .DELETE
    keyPtr := buf + CommandClass.DELETE.word.length + 1
    keySize := r.key.1.length
    noreply := r.gap.isSome
    consumed := r.header.length }

end DeleteRequest

section Accepted

variable {U : CacheUtils}

theorem StorageRequest.fills (r : StorageRequest U) : Fills (storageSpecs r.cls) r.numbers := by
  have hflags := r.flags_range
  have hsize := r.size_range
  have hcas := r.cas_isSome
  refine .cons (if_neg (by omega)) (.cons rfl (.cons (if_neg (by omega)) ?_))
  rw [← hcas]
  cases r.cas with
  | none => exact .nil
  | some cas => exact .cons rfl .nil

theorem range_of_not_refused {value hi : Int} {msg : String}
    (h : (if value > hi ∨ value < 0 then some msg else none) = none) : 0 ≤ value ∧ value ≤ hi := by
  by_cases hout : value > hi ∨ value < 0
  · simp [hout] at h
  · omega

/-- Numbers that fill a storage line are those of a storage request. -/
theorem storage_numbers {cls : CommandClass} {numbers : List (Number U)}
    (h : Fills (storageSpecs cls) numbers) :
    ∃ (flags exptime size : Number U) (cas : Option (Number U)),
      numbers = flags :: exptime :: size :: cas.toList ∧ cas.isSome = cls.isCAS ∧
      (0 ≤ flags.value ∧ flags.value ≤ 0xffffffff) ∧
      (0 ≤ size.value ∧ size.value ≤ 2 ^ 31 - 1) := by
  cases h with
  | @cons _ flags _ _ hflags h =>
    cases h with
    | @cons _ exptime _ _ _ h =>
      cases h with
      | @cons _ size _ numbers hsize h =>
        have hflags := range_of_not_refused hflags
        have hsize := range_of_not_refused hsize
        cases hcls : cls.isCAS with
        | false =>
          simp only [hcls, Bool.false_eq_true, if_false] at h
          cases h
          exact ⟨flags, exptime, size, none, rfl, rfl, hflags, hsize⟩
        | true =>
          simp only [hcls, if_true] at h
          cases h with
          | @cons _ cas _ _ _ h =>
            cases h
            exact ⟨flags, exptime, size, some cas, rfl, rfl, hflags, hsize⟩

theorem StorageRequest.line_eq (r : StorageRequest U) (msg : String) (ptr : Int)
    (rest : List UInt8) :
    line U (storageSpecs r.cls) msg ⟨ptr, r.header ++ rest⟩ =
      .done (⟨ptr, r.key.1⟩, r.numbers.map Number.value, r.gap.isSome,
        ⟨ptr + r.header.length, rest⟩) :=
  line_eq_done_iff.mpr ⟨r.key, r.numbers, r.gap, r.fills, rfl, rfl, rfl,
    by simp [StorageRequest.header], rfl⟩

/-- The arguments of a storage request are read back as they were written. -/
theorem StorageRequest.storage_eq (r : StorageRequest U) (ptr : Int) (rest : List UInt8) :
    storage U r.cls ⟨ptr, r.header ++ (r.block ++ rest)⟩ =
      .done (r.command (ptr - r.cls.word.length - 1)) := by
  have hblock := r.block_length
  have hfits : ¬ r.size.value > ((r.block ++ rest).length : Int) - 2 := by
    simp only [List.length_append]
    omega
  have hcas : (r.cas.toList.map Number.value).getD 0 0 = r.cas.elim 0 Number.value := by
    cases r.cas <;> rfl
  rw [storage_eq_line, r.line_eq]
  simp only [Verdict.done_bind, storageBlock, StorageRequest.numbers, List.map_cons,
    List.getD_cons_zero, List.getD_cons_succ, hcas, incompleteIf, if_neg hfits,
    Verdict.pure_eq_done, Verdict.rethrow_done, Verdict.done.injEq, StorageRequest.command,
    MemcachedCommand.mk.injEq, true_and, and_true]
  omega

/-- Every storage command that is accepted stands for a storage request. -/
theorem storage_sound {cls : CommandClass} {args : Input} {cmd : MemcachedCommand}
    (hcls : cls.isStorage = true) (h : storage U cls args = .done cmd) :
    ∃ (r : StorageRequest U) (rest : List UInt8), r.cls = cls ∧
      args.rest = r.header ++ (r.block ++ rest) ∧
      cmd = r.command (args.ptr - cls.word.length - 1) := by
  have haccept := h
  rw [storage_eq_line] at h
  simp only [Verdict.rethrow_eq_done_iff, Verdict.bind_eq_done_iff, Prod.exists] at h
  obtain ⟨key, values, noreply, c, hline, hblock⟩ := h
  obtain ⟨k, numbers, gap, hfills, -, rfl, -, hrest, -⟩ := line_eq_done_iff.mp hline
  obtain ⟨flags, exptime, size, cas, rfl, hcas, hflags, hsize⟩ := storage_numbers hfills
  simp only [storageBlock, Verdict.bind_eq_done_iff, incompleteIf_eq_done_iff, exists_const,
    List.map_cons, List.getD_cons_zero, List.getD_cons_succ] at hblock
  let r : StorageRequest U :=
    { cls, key := k, flags, exptime, size, cas, gap
      block := c.rest.take (size.value + 2).toNat
      isStorage := hcls
      cas_isSome := hcas
      flags_range := hflags
      size_range := hsize
      block_length := by
        simp only [List.length_take]
        omega }
  have hargs : args.rest = r.header ++ (r.block ++ c.rest.drop (size.value + 2).toNat) := by
    simp only [r, List.take_append_drop, StorageRequest.header, StorageRequest.numbers, hrest,
      List.append_assoc]
  refine ⟨r, _, rfl, hargs, ?_⟩
  have heq := r.storage_eq args.ptr (c.rest.drop (size.value + 2).toNat)
  rw [← hargs] at heq
  exact Verdict.done.inj (haccept.symm.trans heq)

theorem KeyNumberRequest.keyNumber_eq (r : KeyNumberRequest U) (msg : String)
    (command : Int → Int → Int → Bool → Int → MemcachedCommand) (ptr : Int)
    (rest : List UInt8) :
    keyNumber U msg command ⟨ptr, r.header ++ rest⟩ =
      .done (command ptr r.key.1.length r.number.value r.gap.isSome r.header.length) := by
  have hline : line U numberSpecs msg ⟨ptr, r.header ++ rest⟩ =
      .done (⟨ptr, r.key.1⟩, [r.number.value], r.gap.isSome, ⟨ptr + r.header.length, rest⟩) :=
    line_eq_done_iff.mpr ⟨r.key, [r.number], r.gap, .cons rfl .nil, rfl, rfl, rfl,
      by simp [KeyNumberRequest.header], rfl⟩
  have hlength : ptr + r.header.length - ptr = r.header.length := by omega
  rw [keyNumber_eq_line, hline]
  simp only [Verdict.done_bind, List.getD_cons_zero, hlength, Verdict.rethrow_done]

theorem KeyNumberRequest.arguments_eq (r : KeyNumberRequest U) (ptr : Int) (rest : List UInt8) :
    arguments U r.cls ⟨ptr, r.header ++ rest⟩ =
      .done (r.command (ptr - r.cls.word.length - 1)) := by
  rcases r.isKeyNumber with h | h | h
  all_goals
    simp only [arguments, h, incr, touch, KeyNumberRequest.keyNumber_eq, KeyNumberRequest.command,
      Verdict.done.injEq, MemcachedCommand.mk.injEq, reduceCtorEq, if_true, if_false, true_and,
      and_true]
    omega

theorem keyNumber_sound {cls : CommandClass} {args : Input} {cmd : MemcachedCommand}
    (hcls : cls = .INCR ∨ cls = .DECR ∨ cls = .TOUCH) (h : arguments U cls args = .done cmd) :
    ∃ (r : KeyNumberRequest U) (rest : List UInt8), r.cls = cls ∧
      args.rest = r.header ++ rest ∧ cmd = r.command (args.ptr - cls.word.length - 1) := by
  obtain ⟨msg, command, hform⟩ : ∃ msg command, keyNumber U msg command args = .done cmd := by
    rcases hcls with rfl | rfl | rfl
    all_goals
      simp only [arguments, incr, touch] at h
      exact ⟨_, _, h⟩
  rw [keyNumber_eq_line] at hform
  simp only [Verdict.rethrow_eq_done_iff, Verdict.bind_eq_done_iff, Prod.exists] at hform
  obtain ⟨key, values, noreply, c, hline, -⟩ := hform
  obtain ⟨k, numbers, gap, hfills, -, -, -, hrest, -⟩ := line_eq_done_iff.mp hline
  obtain ⟨number, rfl⟩ : ∃ number, numbers = [number] := by
    cases hfills with
    | @cons _ number _ _ _ hnil =>
      cases hnil
      exact ⟨number, rfl⟩
  let r : KeyNumberRequest U := { cls, key := k, number, gap, isKeyNumber := hcls }
  have hargs : args.rest = r.header ++ c.rest := by
    simp only [r, KeyNumberRequest.header, hrest, List.append_assoc]
  refine ⟨r, c.rest, rfl, hargs, ?_⟩
  have heq := r.arguments_eq args.ptr c.rest
  rw [← hargs] at heq
  exact Verdict.done.inj (h.symm.trans heq)

end Accepted

theorem DeleteRequest.delete_eq (U : CacheUtils) (r : DeleteRequest) (ptr : Int)
    (rest : List UInt8) :
    delete ⟨ptr, r.header ++ rest⟩ =
      .done (r.command (ptr - CommandClass.DELETE.word.length - 1)) := by
  have hline : line U [] "'\r\n' was expected" ⟨ptr, r.header ++ rest⟩ =
      .done (⟨ptr, r.key.1⟩, [], r.gap.isSome, ⟨ptr + r.header.length, rest⟩) :=
    line_eq_done_iff.mpr ⟨r.key, [], r.gap, .nil, rfl, rfl, rfl, by simp [DeleteRequest.header],
      rfl⟩
  rw [delete_eq_line U, hline]
  simp only [Verdict.done_bind, Verdict.done.injEq, DeleteRequest.command,
    MemcachedCommand.mk.injEq, true_and, and_true]
  omega

theorem delete_sound (U : CacheUtils) {args : Input} {cmd : MemcachedCommand}
    (h : delete args = .done cmd) :
    ∃ (r : DeleteRequest) (rest : List UInt8), args.rest = r.header ++ rest ∧
      cmd = r.command (args.ptr - CommandClass.DELETE.word.length - 1) := by
  have haccept := h
  rw [delete_eq_line U] at h
  simp only [Verdict.bind_eq_done_iff, Prod.exists] at h
  obtain ⟨key, values, noreply, c, hline, -⟩ := h
  obtain ⟨k, numbers, gap, hfills, -, -, -, hrest, -⟩ := line_eq_done_iff.mp hline
  cases hfills
  let r : DeleteRequest := { key := k, gap }
  have hargs : args.rest = r.header ++ c.rest := by
    simp only [r, DeleteRequest.header, hrest, fieldsBytes_nil, List.nil_append, List.append_assoc]
  refine ⟨r, c.rest, hargs, ?_⟩
  have heq := r.delete_eq U args.ptr c.rest
  rw [← hargs] at heq
  exact Verdict.done.inj (haccept.symm.trans heq)

end Memcarrot.Wire
