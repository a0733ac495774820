import Memcarrot.Wire.Acceptance
import Memcarrot.Wire.Waiting

open Incremental

namespace Memcarrot.Wire

/-- The arguments follow the command word behind at most one space. -/
def Reached (space : Bool) (args : List UInt8) : Prop :=
  ∃ b bs, args = b :: bs ∧ b ≠ SP ∧ (space = false → b = CR)

/-- Input whose command waits in vain. -/
def Stalls (U : CacheUtils) (s : List UInt8) : Prop :=
  ∃ (cls : CommandClass) (space : Bool) (args : List UInt8), Reached space args ∧
    s = cls.word ++ (List.replicate space.toNat SP ++ args) ∧ ArgumentsStall U cls args

/-- The line of a storage request whose data block has not arrived in full. -/
def AwaitsData (U : CacheUtils) (s : List UInt8) : Prop :=
  ∃ (r : StorageRequest U) (rest : List UInt8), s = r.cls.word ++ SP :: (r.header ++ rest) ∧
    rest.length < r.block.length

theorem infix_of_opens {c args : Input} {cls : CommandClass} {space : Bool}
    (h : Opens c cls space args) (hline : CRLF <:+: c.rest) : CRLF <:+: args.rest := by
  rw [h.rest_eq] at hline
  exact (crlf_infix_append (cr_notMem_replicate _)).mp
    ((crlf_infix_append (isToken_word cls).cr_notMem).mp hline)

theorem opens_of_reached (cls : CommandClass) {space : Bool} {args : List UInt8}
    (h : Reached space args) (ptr : Int) :
    Opens ⟨ptr, cls.word ++ (List.replicate space.toNat SP ++ args)⟩ cls space
      ⟨ptr + cls.word.length + space.toNat, args⟩ :=
  ⟨rfl, rfl, h⟩

theorem opens_storage {U : CacheUtils} (r : StorageRequest U) (ptr : Int) (rest : List UInt8) :
    Opens ⟨ptr, r.cls.word ++ SP :: (r.header ++ rest)⟩ r.cls true
      ⟨ptr + r.cls.word.length + 1, r.header ++ rest⟩ := by
  obtain ⟨b, bs, hb, hsp⟩ := r.key.2.append_head_ne_space
    (fieldsBytes r.numbers ++ lineEndBytes r.gap ++ rest)
  exact ⟨rfl, rfl, b, bs, by simpa [StorageRequest.header] using hb, hsp, by simp⟩

/-- A command that waits in vain does not wait for data: the line of a storage request does not
stall. -/
theorem not_awaitsData_of_stalls {U : CacheUtils} {s : List UInt8} (hline : CRLF <:+: s)
    (h : Stalls U s) : ¬ AwaitsData U s := by
  rintro ⟨r, rest, hs, -⟩
  obtain ⟨cls, space, args, hreached, hargs, hstall⟩ := h
  have hopens := opens_of_reached cls hreached 0
  rw [← hargs] at hopens
  have hopens' := opens_storage r 0 rest
  rw [← hs] at hopens'
  obtain ⟨rfl, hsame⟩ := hopens.unique hopens'
  simp only [Cursor.mk.injEq] at hsame
  obtain ⟨hptr, rfl⟩ := hsame
  have hinfix := infix_of_opens hopens hline
  have hline' := r.line_eq "'\\r\\n' was expected" (0 + r.cls.word.length + space.toNat) rest
  have hstalls : LineStalls U (storageSpecs r.cls) (r.header ++ rest) := by
    have hcls := r.isStorage
    cases hc : r.cls <;> simp_all [ArgumentsStall, CommandClass.isStorage]
  have hinc := (line_eq_incomplete_iff "'\\r\\n' was expected" hinfix).mpr hstalls
  rw [hline'] at hinc
  cases hinc

/-- In a complete line, the parser waits in vain or for the data of a storage request. -/
theorem parse_eq_incomplete_iff {U : CacheUtils} {c : Input} (hlong : 3 ≤ c.rest.length)
    (hline : CRLF <:+: c.rest) :
    parse U c = .incomplete ↔ Stalls U c.rest ∨ AwaitsData U c.rest := by
  obtain ⟨ptr, s⟩ := c
  simp only at hlong hline
  constructor
  · intro hinc
    rcases parse_cases U ⟨ptr, s⟩ with ⟨cls, space, args, hopens⟩ | ⟨-, hshort⟩ | hstop |
      ⟨name, -, hstop⟩
    · have hinfix := infix_of_opens hopens hline
      rw [hopens.parse_eq, arguments_eq_incomplete_iff hinfix] at hinc
      rcases hinc with hstall | ⟨-, r, rest, rfl, hargs, hmissing⟩
      · exact .inl ⟨cls, space, args.rest, hopens.head, hopens.rest_eq, hstall⟩
      · have hspace := hopens.space_of_isToken (t := r.key.1)
          (s := fieldsBytes r.numbers ++ lineEndBytes r.gap ++ rest) r.key.2
          (by simp [hargs, StorageRequest.header])
        refine .inr ⟨r, rest, ?_, hmissing⟩
        have hrest := hopens.rest_eq
        simp only [hspace, hargs] at hrest
        simpa using hrest
    · rcases hshort with hshort | hshort
      · simp only at hshort
        omega
      · exact absurd (cr_mem_of_line hline) hshort
    · rw [hstop] at hinc
      cases hinc
    · rw [hstop] at hinc
      cases hinc
  · rintro (⟨cls, space, args, hreached, rfl, hstall⟩ | ⟨r, rest, rfl, hmissing⟩)
    · have hopens := opens_of_reached cls hreached ptr
      rw [hopens.parse_eq, arguments_eq_incomplete_iff (infix_of_opens hopens hline)]
      exact .inl hstall
    · have hopens := opens_storage r ptr rest
      rw [hopens.parse_eq, arguments_eq_incomplete_iff (infix_of_opens hopens hline)]
      exact .inr ⟨r.isStorage, r, rest, rfl, rfl, hmissing⟩

end Memcarrot.Wire
