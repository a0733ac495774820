import Memcarrot.Refinement.Fields
import Memcarrot.Wire.Commands

open Incremental RawMemory
open RawMemory.Access (Simulates)

namespace Memcarrot.Refinement

open Utils

variable {m : Memory} {lo hi base size : Int} {args : Wire.Input}

/-- What the parse method of a class is called with: the arguments begin with a byte other than
a space, and where they do not begin with a line end, a received space stands in front. -/
structure ArgsAt (m : Memory) (lo hi base size : Int) (args : Wire.Input) : Prop where
  at_base : At m lo hi base 0 args
  size_eq : base + size = hi
  head : ∃ b bs, args.rest = b :: bs ∧ b ≠ SP
  before : Wire.Stops args.rest ∨ At m lo hi base (-1) ⟨args.ptr - 1, SP :: args.rest⟩

theorem ArgsAt.base_eq (h : ArgsAt m lo hi base size args) : base = args.ptr := by
  have hptr := h.at_base.ptr_eq
  omega

theorem ArgsAt.tokenAt (h : ArgsAt m lo hi base size args) {token : Wire.Token}
    {c : Wire.Input} (hspan : (span isTokenByte args : Verdict Thrown _) = .done (token, c)) :
    TokenAt m lo hi base (0, (token.items.length : Int)) (token, c) := by
  have htoken := TokenAt.of_span h.at_base hspan
  rwa [Int.add_zero] at htoken

/-- The key of incr, decr, touch and delete. -/
theorem keyField_simulates (h : ArgsAt m lo hi base size args)
    {f : Int → Access Thrown MemcachedCommand}
    {g : Wire.Token × Wire.Input → Verdict Thrown MemcachedCommand}
    (hfg : ∀ key c, TokenAt m lo hi base (0, (key.items.length : Int)) (key, c) →
      Simulates m lo hi Eq (f key.items.length) (g (key, c))) :
    Simulates m lo hi Eq
      (do let stop ← nextTokenEnd base size
          returnFalseIf (stop ≤ 0)
          f stop)
      (Wire.keyField args >>= g) := by
  unfold Wire.keyField
  rw [Verdict.bind_assoc]
  refine scan_bind h.at_base (by omega) h.size_eq ?_ fun key c hspan _ => ?_
  · rw [returnFalseIf_true (by omega)]
    exact .incomplete
  rw [Verdict.bind_assoc]
  refine (returnFalseIf_simulates ?_).bind fun _ _ _ _ => hfg key c (h.tokenAt hspan)
  rw [← List.length_eq_zero_iff]
  omega

/-- StorageCommand does not test whether its key has ended. Where it has not, the next field is
looked for from the space in front of the key, and the input is found incomplete there. -/
theorem storageKey_simulates (h : ArgsAt m lo hi base size args)
    {f : Int → Int × Int → Access Thrown MemcachedCommand}
    {g : Wire.Token × Wire.Input → Wire.Token × Wire.Input → Verdict Thrown MemcachedCommand}
    (msg : String)
    (hfg : ∀ key c field next, TokenAt m lo hi base (0, (key.items.length : Int)) (key, c) →
      TokenAt m lo hi base field next →
      Simulates m lo hi Eq (f key.items.length field) (g (key, c) next)) :
    Simulates m lo hi Eq
      (do let stop ← nextTokenEnd base size
          let field ← nextField base size stop msg
          f stop field)
      (do let key ← Wire.keyField args
          let next ← Wire.nextField msg key.2
          g key next) := by
  obtain ⟨b, bs, hargs, hb⟩ := h.head
  unfold Wire.keyField
  refine scan_cases h.at_base (by omega) h.size_eq (fun hspan => ?_) fun key c hspan _ => ?_
  · have hall := span_eq_incomplete_iff.mp hspan
    rw [hspan]
    rcases h.before with ⟨stop, rest, hrest, hstop⟩ | hbefore
    · rw [hall stop (by simp [hrest])] at hstop
      cases hstop
    · have hfield := nextField_simulates msg hbefore h.size_eq
      have hinc : Wire.nextField msg ⟨args.ptr - 1, SP :: args.rest⟩ = .incomplete := by
        have hgap : (span isSpace (⟨args.ptr - 1, SP :: args.rest⟩ : Wire.Input) :
            Verdict Thrown _) = .done (⟨args.ptr - 1, [SP]⟩, args) := by
          obtain ⟨ptr, rest⟩ := args
          simp only at hargs
          subst hargs
          simpa using Wire.span_one_space (c := ⟨ptr - 1, SP :: b :: bs⟩) hb rfl
        unfold Wire.nextField
        rw [hgap]
        simp [Wire.incompleteIf, Wire.failIf, hspan]
      rw [hinc] at hfield
      exact hfield.stop
  · have htoken := h.tokenAt hspan
    rw [hspan]
    have hfield := nextField_simulates msg htoken.next h.size_eq
    by_cases hempty : key.items = []
    · have hc : c.rest = args.rest := by
        have hrest := (Wire.span_token_eq_done_iff.mp hspan).1
        simpa [hempty] using hrest.symm
      have hinc : Wire.nextField msg c = .incomplete := by
        have hgap : (span isSpace c : Verdict Thrown _) = .done (⟨c.ptr, []⟩, c) :=
          Wire.span_no_space hb (hc.trans hargs)
        unfold Wire.nextField
        rw [hgap]
        simp [Wire.incompleteIf]
      rw [hinc] at hfield
      simp only [hempty] at hfield
      simp only [Verdict.done_bind, hempty, Wire.incompleteIf, if_true, Verdict.incomplete_bind]
      exact hfield.stop
    · simp only [Verdict.done_bind, hempty, Wire.incompleteIf, if_false, Verdict.pure_eq_done]
      exact hfield.bind fun field next hnext _ => hfg key c field next htoken hnext

theorem casField_simulates (U : CacheUtils) (cls : CommandClass) {off : Int} {c : Wire.Input}
    (h : At m lo hi base off c) (hsize : base + size = hi) :
    Simulates m lo hi (fun r read => r.1 = read.1 ∧ At m lo hi base r.2 read.2)
      (StorageCommand.casField U cls base size off) (Wire.casField U cls c) := by
  unfold StorageCommand.casField Wire.casField
  split
  · apply (nextField_simulates _ h hsize).bind
    rintro ⟨start, stop⟩ ⟨token, next⟩ htoken -
    apply (strToLongDirect_simulates U htoken).bind
    rintro cas _ rfl -
    exact .pure ⟨rfl, htoken.next⟩
  · exact .pure ⟨rfl, h⟩

theorem storage_simulates (U : CacheUtils) (cls : CommandClass)
    (h : ArgsAt m lo hi base size args) :
    Simulates m lo hi Eq (StorageCommand.parse U cls base size) (Wire.storage U cls args) := by
  have hsize := h.size_eq
  have hbase := h.base_eq
  unfold StorageCommand.parse Wire.storage
  refine Simulates.rethrow ?_ _
  apply storageKey_simulates h _
  rintro key afterKey ⟨start, stop⟩ ⟨token, c⟩ hkey htoken
  apply (strToLongDirect_simulates U htoken).bind
  rintro flags _ rfl -
  refine (throwIf_simulates _ Iff.rfl).bind fun _ _ _ _ => ?_
  refine (nextField_simulates _ htoken.next hsize).bind ?_
  rintro ⟨start, stop⟩ ⟨token, c⟩ htoken -
  apply (strToLongDirect_simulates U htoken).bind
  rintro exptime _ rfl -
  apply (nextField_simulates _ htoken.next hsize).bind
  rintro ⟨start, stop⟩ ⟨token, c⟩ htoken -
  apply (strToLongDirect_simulates U htoken).bind
  rintro valSize _ rfl -
  refine (throwIf_simulates _ Iff.rfl).bind fun _ _ _ _ => ?_
  refine (casField_simulates U cls htoken.next hsize).bind ?_
  rintro ⟨cas, stop⟩ ⟨_, c⟩ ⟨rfl, hcas⟩ -
  apply (lineEnd_simulates U _ hcas hsize).bind
  rintro ⟨noreply, stop⟩ ⟨_, c⟩ ⟨rfl, hend⟩ -
  have hptr := hend.ptr_eq
  have hends := hend.views.ends
  have hkeyPtr := hkey.start.ptr_eq
  simp only at hptr hends hkeyPtr ⊢
  refine (returnFalseIf_simulates (by omega)).bind fun _ _ _ _ => .pure ?_
  simp only [MemcachedCommand.mk.injEq, true_and, and_true]
  omega

theorem keyNumber_simulates (U : CacheUtils) (msg : String)
    (command : Int → Int → Int → Bool → Int → MemcachedCommand)
    (h : ArgsAt m lo hi base size args) :
    Simulates m lo hi Eq (parseKeyNumber U base size msg command)
      (Wire.keyNumber U msg command args) := by
  have hsize := h.size_eq
  have hbase := h.base_eq
  unfold parseKeyNumber Wire.keyNumber
  refine Simulates.rethrow ?_ _
  apply keyField_simulates h
  intro key c hkey
  apply (nextField_simulates _ hkey.next hsize).bind
  rintro ⟨start, stop⟩ ⟨token, c⟩ htoken -
  apply (strToLongDirect_simulates U htoken).bind
  rintro value _ rfl -
  apply (lineEnd_simulates U msg htoken.next hsize).bind
  rintro ⟨noreply, stop⟩ ⟨_, c⟩ ⟨rfl, hend⟩ -
  have hptr := hend.ptr_eq
  have hkeyPtr := hkey.start.ptr_eq
  simp only at hptr hkeyPtr ⊢
  rw [show key.ptr = base by omega, show c.ptr - args.ptr = stop by omega]
  exact .pure rfl

theorem delete_simulates (U : CacheUtils) (h : ArgsAt m lo hi base size args) :
    Simulates m lo hi Eq (DELETE.parse U base size) (Wire.delete args) := by
  have hsize := h.size_eq
  have hbase := h.base_eq
  unfold DELETE.parse Wire.delete
  apply keyField_simulates h
  intro key c hkey
  apply (lineEnd_simulates U _ hkey.next hsize).bind
  rintro ⟨noreply, stop⟩ ⟨_, c⟩ ⟨rfl, hend⟩ -
  have hptr := hend.ptr_eq
  have hkeyPtr := hkey.start.ptr_eq
  simp only at hptr hkeyPtr ⊢
  rw [show key.ptr = base by omega, show c.ptr - args.ptr = stop by omega]
  exact .pure rfl

end Memcarrot.Refinement
