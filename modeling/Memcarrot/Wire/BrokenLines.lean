import Mathlib.Data.List.Infix
import Memcarrot.Wire.Lines

open Incremental

namespace Memcarrot.Wire

/-- A line that ends where one more number is expected. -/
def BreaksOff (s : List UInt8) : Prop := ∃ rest, s = CR :: rest ∨ s = SP :: CR :: rest

/-- Spaces and a word that starts with n, with too few bytes to tell whether it is noreply. -/
def ShortNoreply (s : List UInt8) : Prop :=
  ∃ (n : Nat) (word : List UInt8), s = List.replicate (n + 1) SP ++ word ∧
    word.head? = some LOWER_N ∧ word.length < 9

theorem crlf_infix_append {t s : List UInt8} (ht : CR ∉ t) : CRLF <:+: t ++ s ↔ CRLF <:+: s := by
  induction t with
  | nil => rfl
  | cons b bs ih =>
    simp only [List.mem_cons, not_or] at ht
    rw [List.cons_append, List.infix_cons_iff, ih ht.2]
    refine or_iff_right fun hstart => ?_
    obtain ⟨rest, hrest⟩ := hstart
    exact ht.1 (List.cons.inj hrest).1

theorem IsToken.cr_notMem {t : List UInt8} (ht : IsToken t) : CR ∉ t := fun hmem =>
  (isTokenByte_eq_true_iff.mp (ht.bytes CR hmem)).2 rfl

theorem cr_mem_of_line {s : List UInt8} (h : CRLF <:+: s) : CR ∈ s := h.subset (by decide)

theorem two_le_length_of_line {s : List UInt8} (h : CRLF <:+: s) : 2 ≤ s.length := h.length_le

theorem cr_notMem_replicate (n : Nat) : CR ∉ List.replicate n SP := fun h =>
  absurd (List.eq_of_mem_replicate h) (by decide)

theorem cr_notMem_fieldsBytes {U : CacheUtils} (numbers : List (Number U)) :
    CR ∉ fieldsBytes numbers := by
  induction numbers with
  | nil => simp
  | cons n numbers ih =>
    simp only [fieldsBytes_cons, List.mem_cons, List.mem_append, not_or]
    exact ⟨by decide, n.isToken.cr_notMem, ih⟩

section Incomplete

variable {U : CacheUtils} {msg : String} {c : Input}

theorem span_token_ne_incomplete (h : CR ∈ c.rest) :
    (span isTokenByte c : Verdict Thrown _) ≠ .incomplete := fun hspan =>
  absurd (span_eq_incomplete_iff.mp hspan CR h) (by decide)

theorem span_space_ne_incomplete (h : CR ∈ c.rest) :
    (span isSpace c : Verdict Thrown _) ≠ .incomplete := fun hspan =>
  absurd (span_eq_incomplete_iff.mp hspan CR h) (by decide)

theorem keyField_eq_incomplete_iff (h : CR ∈ c.rest) : keyField c = .incomplete ↔ Stops c.rest := by
  simp only [keyField, Verdict.bind_eq_incomplete_iff, span_token_ne_incomplete h, false_or,
    incompleteIf_eq_incomplete_iff, incompleteIf_eq_done_iff, Verdict.pure_eq_done, reduceCtorEq,
    and_false, exists_false, or_false, Prod.exists]
  constructor
  · rintro ⟨token, next, hspan, hempty⟩
    obtain ⟨hrest, -, -, -, hstop⟩ := span_token_eq_done_iff.mp hspan
    rw [hrest, hempty]
    exact hstop
  · intro hstop
    refine ⟨⟨c.ptr, []⟩, c, span_token_eq_done_iff.mpr ⟨rfl, rfl, by simp, by simp, hstop⟩, rfl⟩

theorem nextField_eq_incomplete_iff (hstop : Stops c.rest) (h : CR ∈ c.rest) :
    nextField msg c = .incomplete ↔ BreaksOff c.rest := by
  constructor
  · intro hinc
    simp only [nextField, Verdict.bind_eq_incomplete_iff, span_space_ne_incomplete h, false_or,
      incompleteIf_eq_incomplete_iff, incompleteIf_eq_done_iff, failIf_ne_incomplete,
      failIf_eq_done_iff, Verdict.pure_eq_done, reduceCtorEq, and_false, exists_false, or_false,
      Prod.exists, exists_const] at hinc
    obtain ⟨gap, afterGap, hgap, hcase⟩ := hinc
    obtain ⟨n, b, rest, rfl, rfl, hb, hrest⟩ := span_space_eq_done_iff.mp hgap
    rcases hcase with hempty | ⟨-, hone, htoken⟩
    · have hn : n = 0 := by simpa using hempty
      simp only [hn, List.replicate_zero, List.nil_append] at hrest
      have hdelim := hstop.head b (by rw [hrest]; rfl)
      rcases isTokenByte_eq_false_iff.mp hdelim with rfl | rfl
      · exact absurd rfl hb
      · exact ⟨rest, .inl hrest⟩
    · have hn : n = 1 := by simpa using hone
      subst hn
      have hmem : CR ∈ b :: rest := by
        rw [hrest, List.mem_append] at h
        exact h.resolve_left (cr_notMem_replicate 1)
      rcases htoken with hspan | ⟨token, next, hspan, hempty⟩
      · exact absurd hspan (span_token_ne_incomplete hmem)
      · obtain ⟨hbytes, -, -, -, stop, tail, hstop', hdelim⟩ := span_token_eq_done_iff.mp hspan
        rw [hempty, hstop'] at hbytes
        obtain ⟨rfl, rfl⟩ := List.cons.inj hbytes
        rcases isTokenByte_eq_false_iff.mp hdelim with rfl | rfl
        · exact absurd rfl hb
        · exact ⟨rest, .inr hrest⟩
  · rintro ⟨rest, hrest | hrest⟩
    · have hgap : (span isSpace c : Verdict Thrown _) = .done (⟨c.ptr, []⟩, c) :=
        span_no_space (by decide) hrest
      simp [nextField, hgap, incompleteIf]
    · have hgap : (span isSpace c : Verdict Thrown _) =
          .done (⟨c.ptr, [SP]⟩, ⟨c.ptr + 1, CR :: rest⟩) := span_one_space (by decide) hrest
      have htoken : (span isTokenByte (⟨c.ptr + 1, CR :: rest⟩ : Input) : Verdict Thrown _) =
          .done (⟨c.ptr + 1, []⟩, ⟨c.ptr + 1, CR :: rest⟩) :=
        span_token_eq_done_iff.mpr ⟨rfl, rfl, by simp, by simp, stops_cr rest⟩
      simp [nextField, hgap, htoken, incompleteIf, failIf]

theorem skipCRLF_ne_incomplete (h : 2 ≤ c.rest.length) : skipCRLF msg c ≠ .incomplete := by
  obtain ⟨ptr, rest⟩ := c
  match rest, h with
  | first :: second :: rest, _ =>
    simp [skipCRLF, Verdict.bind_eq_incomplete_iff]

theorem checkNoreply_eq_incomplete_iff {word back : Input} :
    checkNoreply word back = .incomplete ↔
      word.rest.head? = some LOWER_N ∧ word.rest.length < 9 := by
  unfold checkNoreply
  split_ifs <;> simp_all

theorem lineEnd_eq_incomplete_iff (hstop : Stops c.rest) (h : CRLF <:+: c.rest) :
    lineEnd msg c = .incomplete ↔ ShortNoreply c.rest := by
  have hspaces := span_space_ne_incomplete (cr_mem_of_line h)
  simp only [lineEnd, noreplyField, Verdict.bind_eq_incomplete_iff, hspaces, false_or,
    Verdict.bind_eq_done_iff, Verdict.pure_eq_done, reduceCtorEq, and_false, exists_false,
    or_false, Prod.exists, checkNoreply_eq_incomplete_iff]
  constructor
  · rintro (⟨gap, word, hgap, hn, hshort⟩ | ⟨noreply, next, ⟨gap, word, hgap, hcheck⟩, hcrlf⟩)
    · obtain ⟨n, b, rest, rfl, rfl, hb, hrest⟩ := span_space_eq_done_iff.mp hgap
      cases n with
      | zero =>
        -- the word would stand directly behind a token
        have hdelim := hstop.head LOWER_N (by rw [hrest]; exact hn)
        cases hdelim
      | succ n => exact ⟨n, b :: rest, hrest, hn, hshort⟩
    · refine absurd hcrlf (skipCRLF_ne_incomplete ?_)
      rcases checkNoreply_eq_done_iff.mp hcheck with ⟨-, -, -, hlong⟩ | ⟨-, rfl, -⟩
      · exact hlong
      · exact two_le_length_of_line h
  · rintro ⟨n, word, hrest, hn, hshort⟩
    refine .inl ⟨⟨c.ptr, List.replicate (n + 1) SP⟩, ⟨c.ptr + (n + 1 : Nat), word⟩, ?_, hn, hshort⟩
    cases word with
    | nil => simp at hn
    | cons b rest =>
      simp only [List.head?_cons, Option.some.injEq] at hn
      rw [span_space_eq_done_iff]
      exact ⟨n + 1, b, rest, rfl, rfl, by rw [hn]; decide, hrest⟩

theorem field_eq_incomplete_iff {spec : FieldSpec} (hstop : Stops c.rest) (h : CR ∈ c.rest) :
    field U spec c = .incomplete ↔ BreaksOff c.rest := by
  simp [field, Verdict.bind_eq_incomplete_iff, nextField_eq_incomplete_iff hstop h,
    number_ne_incomplete]

/-- Numbers are awaited where the line breaks off behind some of them. -/
theorem fields_eq_incomplete_iff {specs : List FieldSpec} (hstop : Stops c.rest)
    (h : CR ∈ c.rest) :
    fields U specs c = .incomplete ↔
      ∃ (taken : List FieldSpec) (spec : FieldSpec) (left : List FieldSpec)
        (numbers : List (Number U)) (s : List UInt8), specs = taken ++ spec :: left ∧
        Fills taken numbers ∧ c.rest = fieldsBytes numbers ++ s ∧ BreaksOff s := by
  induction specs generalizing c with
  | nil => simp [fields]
  | cons spec specs ih =>
    simp only [fields, Verdict.bind_eq_incomplete_iff, field_eq_incomplete_iff hstop h,
      Verdict.pure_eq_done, reduceCtorEq, and_false, exists_false, or_false, Prod.exists]
    constructor
    · rintro (hbreak | ⟨value, c', hfield, hfields⟩)
      · exact ⟨[], spec, specs, [], c.rest, rfl, .nil, rfl, hbreak⟩
      · obtain ⟨n, hrefuse, rfl, hrest, -, hstop'⟩ := field_eq_done_iff.mp hfield
        have h' : CR ∈ c'.rest := by
          simp only [hrest, List.mem_cons, List.mem_append] at h
          exact (h.resolve_left (by decide)).resolve_left n.isToken.cr_notMem
        obtain ⟨taken, spec', left, numbers, s, rfl, hfills, hs, hbreak⟩ :=
          (ih hstop' h').mp hfields
        exact ⟨spec :: taken, spec', left, n :: numbers, s, rfl, .cons hrefuse hfills,
          by simp [hrest, hs], hbreak⟩
    · rintro ⟨taken, spec', left, numbers, s, hspecs, hfills, hrest, hbreak⟩
      cases hfills with
      | nil => exact .inl (by simpa [hrest] using hbreak)
      | @cons spec₀ n taken numbers hrefuse hfills =>
        obtain ⟨rfl, rfl⟩ := List.cons.inj hspecs
        have hstop' : Stops (fieldsBytes numbers ++ s) := by
          apply fieldsBytes_stops numbers
          obtain ⟨rest, rfl | rfl⟩ := hbreak
          · exact stops_cr rest
          · exact stops_space _
        simp only [fieldsBytes_cons, List.cons_append, List.append_assoc] at hrest
        have h' : CR ∈ fieldsBytes numbers ++ s := by
          simp only [hrest, List.mem_cons, List.mem_append] at h ⊢
          exact (h.resolve_left (by decide)).resolve_left n.isToken.cr_notMem
        refine .inr ⟨n.value, ⟨c.ptr + 1 + n.token.length, fieldsBytes numbers ++ s⟩,
          field_eq_done_iff.mpr ⟨n, hrefuse, rfl, hrest, rfl, hstop'⟩, ?_⟩
        exact (ih hstop' h').mpr ⟨taken, spec', left, numbers, s, rfl, hfills, rfl, hbreak⟩

end Incomplete

/-- The arguments of a complete line on which a parser waits for more bytes: there is no key, the
line breaks off behind some of the numbers, or it goes on with a short word that starts with n. -/
inductive LineStalls (U : CacheUtils) (specs : List FieldSpec) : List UInt8 → Prop where
  | noKey {s : List UInt8} (stops : Stops s) : LineStalls U specs s
  | breaksOff (key : Key) (taken : List FieldSpec) (spec : FieldSpec) (left : List FieldSpec)
      (numbers : List (Number U)) (s : List UInt8) (specs_eq : specs = taken ++ spec :: left)
      (fills : Fills taken numbers) (breaks : BreaksOff s) :
      LineStalls U specs (key.1 ++ (fieldsBytes numbers ++ s))
  | shortNoreply (key : Key) (numbers : List (Number U)) (s : List UInt8)
      (fills : Fills specs numbers) (short : ShortNoreply s) :
      LineStalls U specs (key.1 ++ (fieldsBytes numbers ++ s))

theorem BreaksOff.stops {s : List UInt8} (h : BreaksOff s) : Stops s := by
  obtain ⟨rest, rfl | rfl⟩ := h
  · exact stops_cr rest
  · exact stops_space _

theorem ShortNoreply.stops {s : List UInt8} (h : ShortNoreply s) : Stops s := by
  obtain ⟨n, word, rfl, -, -⟩ := h
  rw [List.replicate_succ]
  exact stops_space _

theorem shortNoreply_iff {n : Nat} {b : UInt8} {rest : List UInt8} (hb : b ≠ SP) :
    ShortNoreply (List.replicate n SP ++ b :: rest) ↔
      n ≠ 0 ∧ b = LOWER_N ∧ (b :: rest).length < 9 := by
  constructor
  · rintro ⟨k, word, hword, hhead, hshort⟩
    cases word with
    | nil => cases hhead
    | cons x xs =>
      obtain rfl : x = LOWER_N := by simpa using hhead
      obtain ⟨rfl, rfl, rfl⟩ := spaces_append_inj hb (by decide) hword
      exact ⟨Nat.succ_ne_zero k, rfl, hshort⟩
  · rintro ⟨hn, rfl, hshort⟩
    obtain ⟨k, rfl⟩ := Nat.exists_eq_succ_of_ne_zero hn
    exact ⟨k, LOWER_N :: rest, rfl, rfl, hshort⟩

/-- Behind a key and numbers, the end of the line is still to come. -/
theorem infix_of_fields {U : CacheUtils} {key : Key} {numbers : List (Number U)} {s : List UInt8}
    (h : CRLF <:+: key.1 ++ (fieldsBytes numbers ++ s)) : CRLF <:+: s :=
  (crlf_infix_append (cr_notMem_fieldsBytes numbers)).mp
    ((crlf_infix_append key.2.cr_notMem).mp h)

theorem line_eq_incomplete_iff {U : CacheUtils} {specs : List FieldSpec} (msg : String)
    {args : Input} (h : CRLF <:+: args.rest) :
    line U specs msg args = .incomplete ↔ LineStalls U specs args.rest := by
  have hcr := cr_mem_of_line h
  simp only [line, Verdict.bind_eq_incomplete_iff, keyField_eq_incomplete_iff hcr,
    Verdict.pure_eq_done, reduceCtorEq, and_false, exists_false, or_false, Prod.exists]
  constructor
  · rintro (hstop | ⟨key, c0, hkey, hfields | ⟨values, c1, hfields, hend⟩⟩)
    · exact .noKey hstop
    all_goals
      obtain ⟨hrest0, -, -, htoken, hstop0⟩ := keyField_eq_done_iff.mp hkey
      have h0 : CRLF <:+: c0.rest := by
        rwa [hrest0, crlf_infix_append htoken.cr_notMem] at h
      rw [hrest0]
    · obtain ⟨taken, spec, left, numbers, s, hspecs, hfills, hrest1, hbreak⟩ :=
        (fields_eq_incomplete_iff hstop0 (cr_mem_of_line h0)).mp hfields
      rw [hrest1]
      exact .breaksOff ⟨key.items, htoken⟩ taken spec left numbers s hspecs hfills hbreak
    · obtain ⟨numbers, hfills, -, hrest1, -, hstop1⟩ := (fields_eq_done_iff hstop0).mp hfields
      rw [hrest1, crlf_infix_append (cr_notMem_fieldsBytes numbers)] at h0
      rw [hrest1]
      exact .shortNoreply ⟨key.items, htoken⟩ numbers c1.rest hfills
        ((lineEnd_eq_incomplete_iff hstop1 h0).mp hend)
  · intro hstalls
    obtain ⟨ptr, rest⟩ := args
    simp only at h hstalls
    have hkey (key : Key) {t : List UInt8} (ht : Stops t) :
        keyField ⟨ptr, key.1 ++ t⟩ = .done (⟨ptr, key.1⟩, ⟨ptr + key.1.length, t⟩) :=
      keyField_eq_done_iff.mpr ⟨rfl, rfl, rfl, key.2, ht⟩
    cases hstalls with
    | noKey hstop => exact .inl hstop
    | breaksOff key taken spec left numbers s hspecs hfills hbreak =>
      have hstop := fieldsBytes_stops numbers hbreak.stops
      have hcr' := (crlf_infix_append key.2.cr_notMem).mp h
      exact .inr ⟨_, _, hkey key hstop, .inl ((fields_eq_incomplete_iff hstop
        (cr_mem_of_line hcr')).mpr ⟨taken, spec, left, numbers, s, hspecs, hfills, rfl, hbreak⟩)⟩
    | shortNoreply key numbers s hfills hshort =>
      have hstop := fieldsBytes_stops numbers hshort.stops
      refine .inr ⟨_, _, hkey key hstop, .inr ⟨_, ⟨ptr + key.1.length +
        (fieldsBytes numbers).length, s⟩, (fields_eq_done_iff hstop).mpr
          ⟨numbers, hfills, rfl, rfl, rfl, hshort.stops⟩, ?_⟩⟩
      exact (lineEnd_eq_incomplete_iff hshort.stops (infix_of_fields h)).mpr hshort

end Memcarrot.Wire
