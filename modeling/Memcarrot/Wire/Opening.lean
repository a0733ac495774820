import Memcarrot.Wire.Commands
import Memcarrot.Wire.FieldForms

open Incremental

namespace Memcarrot

/-- The word a client writes for a command. -/
def CommandClass.word : CommandClass → List UInt8
  | .GET => ascii "get"
  | .GAT => ascii "gat"
  | .SET => ascii "set"
  | .ADD => ascii "add"
  | .CAS => ascii "cas"
  | .GETS => ascii "gets"
  | .GATS => ascii "gats"
  | .INCR => ascii "incr"
  | .DECR => ascii "decr"
  | .SAVE => ascii "save"
  | .QUIT => ascii "quit"
  | .TOUCH => ascii "touch"
  | .STATS => ascii "stats"
  | .APPEND => ascii "append"
  | .DELETE => ascii "delete"
  | .BGSAVE => ascii "bgsave"
  | .PREPEND => ascii "prepend"
  | .REPLACE => ascii "replace"
  | .VERSION => ascii "version"
  | .SHUTDOWN => ascii "shutdown"
  | .FLUSH_ALL => ascii "flush_all"

namespace Wire

theorem isToken_word (cls : CommandClass) : IsToken cls.word := by
  cases cls <;> decide

theorem three_le_length_word (cls : CommandClass) : 3 ≤ cls.word.length := by
  cases cls <;> decide

theorem classOf_eq_some_iff {word : List UInt8} {cls : CommandClass} :
    classOf word = some cls ↔ word = cls.word := by
  constructor
  · intro h
    obtain ⟨entry, hfind, rfl⟩ := Option.map_eq_some_iff.mp h
    have hword : entry.1 = word := by simpa using List.find?_some hfind
    have hmem := List.mem_of_find?_eq_some hfind
    rw [← hword]
    unfold CommandParser.commands at hmem
    split at hmem <;> simp only [List.mem_cons, List.not_mem_nil, or_false] at hmem
    all_goals rcases hmem with rfl | rfl | rfl | rfl | rfl | rfl
    all_goals rfl
  · rintro rfl
    cases cls <;> decide

/-- The input is a command word, at most one space, and arguments that begin with another
byte. -/
structure Opens (c : Input) (cls : CommandClass) (space : Bool) (args : Input) : Prop where
  rest_eq : c.rest = cls.word ++ (List.replicate space.toNat SP ++ args.rest)
  ptr_eq : args.ptr = c.ptr + cls.word.length + space.toNat
  head : ∃ b bs, args.rest = b :: bs ∧ b ≠ SP ∧ (space = false → b = CR)

/-- The command word is read where it opens the input. -/
theorem Opens.commandWord_eq {c args : Input} {cls : CommandClass} {space : Bool}
    (h : Opens c cls space args) :
    commandWord c =
      .done (cls, ⟨c.ptr + cls.word.length, List.replicate space.toNat SP ++ args.rest⟩) := by
  obtain ⟨hrest, -, b, bs, hargs, -, hcr⟩ := h
  have htoken : (span isTokenByte c : Verdict Thrown _) =
      .done (⟨c.ptr, cls.word⟩,
        ⟨c.ptr + cls.word.length, List.replicate space.toNat SP ++ args.rest⟩) := by
    rw [span_token_eq_done_iff]
    refine ⟨hrest, rfl, rfl, (isToken_word cls).bytes, ?_⟩
    cases space with
    | false =>
      rw [hargs, hcr rfl]
      exact stops_cr bs
    | true => exact stops_space args.rest
  simp [commandWord, htoken, classOf_eq_some_iff.mpr rfl]

theorem Opens.span_space_eq {c args : Input} {cls : CommandClass} {space : Bool}
    (h : Opens c cls space args) :
    (span isSpace (⟨c.ptr + cls.word.length,
      List.replicate space.toNat SP ++ args.rest⟩ : Input) : Verdict Thrown _) =
      .done (⟨c.ptr + cls.word.length, List.replicate space.toNat SP⟩, args) := by
  obtain ⟨-, hptr, b, bs, hargs, hb, -⟩ := h
  rw [span_space_eq_done_iff]
  refine ⟨space.toNat, b, bs, rfl, ?_, hb, by rw [hargs]⟩
  obtain ⟨ptr, rest⟩ := args
  simp only at hargs hptr
  simp [hargs, hptr]

/-- An input that is opened by a command word is decided by the arguments of the command. -/
theorem Opens.parse_eq {U : CacheUtils} {c args : Input} {cls : CommandClass} {space : Bool}
    (h : Opens c cls space args) : parse U c = arguments U cls args := by
  have hword := h.commandWord_eq
  have hspace := h.span_space_eq
  have hrest := h.rest_eq
  obtain ⟨x, xs, hx, hsp, -⟩ := (isToken_word cls).head
  have hlong : ¬ c.rest.length < 3 := by
    have hlen := three_le_length_word cls
    rw [hrest, List.length_append]
    omega
  have hgap : (span isSpace c : Verdict Thrown _) = .done (⟨c.ptr, []⟩, c) :=
    span_no_space hsp (by rw [hrest, hx]; rfl)
  have hone : ¬ space.toNat > 1 := by cases space <;> decide
  simp [parse, incompleteIf, failIf, hlong, hgap, hword, hspace, hone]

/-- An input is opened in one way only. -/
theorem Opens.unique {c args args' : Input} {cls cls' : CommandClass} {space space' : Bool}
    (h : Opens c cls space args) (h' : Opens c cls' space' args') : cls = cls' ∧ args = args' := by
  have hword := h.commandWord_eq.symm.trans h'.commandWord_eq
  simp only [Verdict.done.injEq, Prod.mk.injEq] at hword
  obtain ⟨rfl, hafter⟩ := hword
  have hspace := h.span_space_eq
  rw [hafter, h'.span_space_eq] at hspace
  simp only [Verdict.done.injEq, Prod.mk.injEq] at hspace
  exact ⟨rfl, hspace.2.symm⟩

/-- How the head of the input is decided: a command word opens it, or bytes of it are missing, or
it is refused. -/
theorem parse_cases (U : CacheUtils) (c : Input) :
    (∃ cls space args, Opens c cls space args) ∨
      (parse U c = .incomplete ∧ (c.rest.length < 3 ∨ CR ∉ c.rest)) ∨
      parse U c = .failed (.illegalFormat "malformed request") ∨
      (∃ name, classOf name = none ∧ parse U c = .failed (.unsupportedCommand name)) := by
  have hsp : isSpace CR ≠ true := by decide
  have htb : isTokenByte CR ≠ true := by decide
  by_cases hshort : c.rest.length < 3
  · refine .inr (.inl ⟨?_, .inl hshort⟩)
    simp [parse, incompleteIf, hshort]
  cases hgap : (span isSpace c : Verdict Thrown (Token × Input)) with
  | incomplete =>
    have hall := span_eq_incomplete_iff.mp hgap
    refine .inr (.inl ⟨?_, .inr fun hmem => hsp (hall CR hmem)⟩)
    simp [parse, incompleteIf, hshort, hgap]
  | failed e => exact absurd hgap span_ne_failed
  | done read =>
    obtain ⟨gap, c'⟩ := read
    by_cases hempty : gap.items = []
    · have hc' : c' = c := by
        obtain ⟨n, b, rest, rfl, rfl, -, hrest⟩ := span_space_eq_done_iff.mp hgap
        have hn : n = 0 := by simpa using hempty
        subst hn
        obtain ⟨ptr, items⟩ := c
        simp only at hrest
        simp [hrest]
      subst hc'
      cases hword : (span isTokenByte c' : Verdict Thrown (Token × Input)) with
      | incomplete =>
        have hall := span_eq_incomplete_iff.mp hword
        refine .inr (.inl ⟨?_, .inr fun hmem => htb (hall CR hmem)⟩)
        simp [parse, commandWord, incompleteIf, failIf, hshort, hgap, hempty, hword]
      | failed e => exact absurd hword span_ne_failed
      | done read =>
        obtain ⟨word, afterWord⟩ := read
        obtain ⟨hrest, -, hafter, hbytes, stop, tail, hstop, hdelim⟩ :=
          span_token_eq_done_iff.mp hword
        cases hcls : classOf word.items with
        | none =>
          refine .inr (.inr (.inr ⟨word.items, hcls, ?_⟩))
          simp [parse, commandWord, incompleteIf, failIf, hshort, hgap, hempty, hword, hcls]
        | some cls =>
          have hitems := classOf_eq_some_iff.mp hcls
          cases hspace : (span isSpace afterWord : Verdict Thrown (Token × Input)) with
          | incomplete =>
            have hall := span_eq_incomplete_iff.mp hspace
            refine .inr (.inl ⟨?_, .inr ?_⟩)
            · simp [parse, commandWord, incompleteIf, failIf, hshort, hgap, hempty, hword, hcls,
                hspace]
            · rw [hrest, List.mem_append]
              rintro (hmem | hmem)
              · exact htb (hbytes CR hmem)
              · exact hsp (hall CR hmem)
          | failed e => exact absurd hspace span_ne_failed
          | done read =>
            obtain ⟨gap, args⟩ := read
            obtain ⟨n, b, rest, rfl, rfl, hb, hsplit⟩ := span_space_eq_done_iff.mp hspace
            by_cases hmany : n > 1
            · refine .inr (.inr (.inl ?_))
              simp [parse, commandWord, incompleteIf, failIf, hshort, hgap, hempty, hword, hcls,
                hspace, hmany]
            · refine .inl ⟨cls, decide (n = 1), ⟨afterWord.ptr + n, b :: rest⟩, ?_, ?_, b, rest, rfl,
                hb, ?_⟩
              all_goals obtain rfl | rfl : n = 0 ∨ n = 1 := by omega
              · rw [hrest, hsplit, hitems]
                rfl
              · rw [hrest, hsplit, hitems]
                rfl
              · simp [hafter, hitems]
              · simp [hafter, hitems]
              · intro _
                have hb' : b = stop := (List.cons.inj (hsplit.symm.trans hstop)).1
                rcases isTokenByte_eq_false_iff.mp hdelim with rfl | rfl
                · exact absurd hb' hb
                · exact hb'
              · simp
    · refine .inr (.inr (.inl ?_))
      simp [parse, incompleteIf, failIf, hshort, hgap, hempty]

end Wire

end Memcarrot
