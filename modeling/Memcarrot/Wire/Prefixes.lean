import Memcarrot.Wire.Consumption
import Memcarrot.Wire.Stability

open Incremental

namespace Memcarrot.Wire

variable {U : CacheUtils}

/-- Spaces in front of noreply are counted by flush_all only once. -/
def Request.SingleSpaced : Request U → Prop
  | .flushAll (.delayed _ gap _ _) => gap = none ∨ gap = some 0
  | _ => True

theorem prefix_append_cases {p t s : List UInt8} (h : p <+: t ++ s) :
    p <+: t ∨ ∃ q, p = t ++ q ∧ q ≠ [] ∧ q <+: s := by
  rcases List.prefix_or_prefix_of_prefix h (List.prefix_append t s) with hp | ⟨q, rfl⟩
  · exact .inl hp
  · by_cases hq : q = []
    · exact .inl (by simp [hq])
    · exact .inr ⟨q, rfl, hq, (List.prefix_append_right_inj t).mp h⟩

theorem prefix_cons_cases {p s : List UInt8} {b : UInt8} (h : p <+: b :: s) (hne : p ≠ []) :
    ∃ q, p = b :: q ∧ q <+: s := by
  rcases List.prefix_cons_iff.mp h with hnil | hcons
  · exact absurd hnil hne
  · exact hcons

theorem skipCRLF_of_short (msg : String) {c : Input} (h : c.rest.length < 2) :
    skipCRLF msg c = .incomplete := by
  obtain ⟨ptr, rest⟩ := c
  match rest, h with
  | [], _ => rfl
  | [b], _ => rfl

section FlushAll

theorem flushAll_of_tokenBytes {args : Input} (h : ∀ b ∈ args.rest, isTokenByte b = true) :
    flushAll U args = .incomplete := by
  simp [flushAll, span_eq_incomplete_iff.mpr h]

/-- A flush_all that breaks off behind its first word. -/
theorem flushAll_of_arguments {t q : List UInt8} (ht : IsToken t) (hq : Stops q) (ptr : Int)
    (h : flushArguments U ⟨ptr, t⟩ ⟨ptr, t ++ q⟩ ⟨ptr + t.length, q⟩ = .incomplete ∨
      (q.length < 2 ∧ ∃ delay noreply,
        flushArguments U ⟨ptr, t⟩ ⟨ptr, t ++ q⟩ ⟨ptr + t.length, q⟩ =
          .done (delay, noreply, ⟨ptr + t.length, q⟩))) :
    flushAll U ⟨ptr, t ++ q⟩ = .incomplete := by
  have hspan := span_isToken ptr ht.bytes hq
  rcases h with hinc | ⟨hshort, delay, noreply, hdone⟩
  · simp [flushAll, hspan, ht.nonempty, hinc]
  · have hskip := skipCRLF_of_short "'\r\n' was expected" (c := ⟨ptr + t.length, q⟩) hshort
    simp [flushAll, hspan, ht.nonempty, hdone, hskip]

theorem flushArguments_of_single {token : Token} {args : Input} {v : Int}
    (hhead : token.items.head? ≠ some LOWER_N) (hv : number U token = .done v)
    (hnonneg : 0 ≤ FLUSH_ALL.toInt v) (ptr : Int) {b : UInt8} :
    flushArguments U token args ⟨ptr, [b]⟩ = .done (FLUSH_ALL.toInt v, false, ⟨ptr, [b]⟩) := by
  have hneg : ¬ FLUSH_ALL.toInt v < 0 := by omega
  simp only [flushArguments, hhead, ne_eq, not_false_eq_true, if_true, hv, Verdict.done_bind,
    failIf, hneg, if_false]
  by_cases hb : b = SP
  · have hgap : (span isSpace (⟨ptr, [b]⟩ : Input) : Verdict Thrown (Token × Input)) =
        .incomplete := span_eq_incomplete_iff.mpr (by simp [hb])
    rw [hgap]
    rfl
  · have hgap : (span isSpace (⟨ptr, [b]⟩ : Input) : Verdict Thrown (Token × Input)) =
        .done (⟨ptr, []⟩, ⟨ptr, [b]⟩) := span_no_space hb rfl
    rw [hgap]
    rfl

theorem flushArguments_of_word {token : Token} {args : Input} {v : Int}
    (hhead : token.items.head? ≠ some LOWER_N) (hv : number U token = .done v)
    (hnonneg : 0 ≤ FLUSH_ALL.toInt v) (ptr : Int) {w : List UInt8} (hshort : w.length < 8) :
    flushArguments U token args ⟨ptr, SP :: LOWER_N :: w⟩ = .incomplete := by
  have hneg : ¬ FLUSH_ALL.toInt v < 0 := by omega
  have hgap : (span isSpace (⟨ptr, SP :: LOWER_N :: w⟩ : Input) : Verdict Thrown (Token × Input)) =
      .done (⟨ptr, [SP]⟩, ⟨ptr + 1, LOWER_N :: w⟩) := by
    rw [span_space_eq_done_iff]
    exact ⟨1, LOWER_N, w, rfl, by simp, by decide, rfl⟩
  have hcheck : checkNoreply ⟨ptr + 1, LOWER_N :: w⟩ ⟨ptr, SP :: LOWER_N :: w⟩ = .incomplete :=
    checkNoreply_eq_incomplete_iff.mpr ⟨rfl, by simp only [List.length_cons]; omega⟩
  simp [flushArguments, hhead, hv, failIf, hneg, hgap, hcheck]

/-- The parser waits on every line of flush_all that is cut off. -/
theorem flushAll_cut {r : FlushRequest U} (hsingle : (Request.flushAll r).SingleSpaced)
    {p : List UInt8} (hp : p <+: r.header) (hne : p ≠ r.header) (ptr : Int) :
    flushAll U ⟨ptr, p⟩ = .incomplete := by
  have htokens (t : List UInt8) (ht : IsToken t) (hpt : p <+: t) :
      flushAll U ⟨ptr, p⟩ = .incomplete :=
    flushAll_of_tokenBytes fun b hb => ht.bytes b (hpt.subset hb)
  have hcut (q : List UInt8) (hq : q <+: CRLF) (hqne : q ≠ []) (hqcut : q ≠ CRLF) : q = [CR] := by
    obtain ⟨q, rfl, hlf⟩ := prefix_cons_cases hq hqne
    by_cases hnil : q = []
    · rw [hnil]
    · obtain ⟨rest, rfl, hrest⟩ := prefix_cons_cases hlf hnil
      rw [List.prefix_nil.mp hrest] at hqcut
      exact absurd rfl hqcut
  cases r with
  | now =>
    by_cases hnil : p = []
    · exact flushAll_of_tokenBytes (by simp [hnil])
    · rw [hcut p hp hnil hne]
      rfl
  | nowNoreply =>
    have hnoreply : IsToken NOREPLY := by decide
    rcases prefix_append_cases hp with hp | ⟨q, rfl, hqne, hq⟩
    · exact htokens _ hnoreply hp
    · have hq : q = [CR] := hcut q hq hqne (by rintro rfl; exact hne rfl)
      subst hq
      refine flushAll_of_arguments hnoreply (stops_cr []) ptr (.inl ?_)
      have hcheck : checkNoreply ⟨ptr, NOREPLY ++ [CR]⟩ ⟨ptr + NOREPLY.length, [CR]⟩ =
          .incomplete := checkNoreply_eq_incomplete_iff.mpr ⟨rfl, by simp [NOREPLY, ascii]⟩
      simp only [flushArguments, show NOREPLY.head? = some LOWER_N by decide, ne_eq,
        not_true_eq_false, if_false, hcheck, Verdict.incomplete_bind]
  | delayed delay gap hhead hnonneg =>
    rcases prefix_append_cases hp with hp | ⟨q, rfl, hqne, hq⟩
    · exact htokens _ delay.isToken hp
    · have hqcut : q ≠ lineEndBytes gap := by
        rintro rfl
        exact hne rfl
      have hv := number_eq ptr delay
      rcases hsingle with rfl | rfl
      · have hq : q = [CR] := hcut q hq hqne hqcut
        subst hq
        exact flushAll_of_arguments delay.isToken (stops_cr []) ptr
          (.inr ⟨by simp, _, _, flushArguments_of_single hhead hv hnonneg _⟩)
      · have hend : lineEndBytes (some 0) = SP :: LOWER_N :: (ascii "oreply" ++ CRLF) := rfl
        rw [hend] at hq hqcut
        obtain ⟨q, rfl, hword⟩ := prefix_cons_cases hq hqne
        apply flushAll_of_arguments delay.isToken (stops_space q) ptr
        by_cases hnil : q = []
        · subst hnil
          exact .inr ⟨by simp, _, _, flushArguments_of_single hhead hv hnonneg _⟩
        · obtain ⟨w, rfl, hw⟩ := prefix_cons_cases hword hnil
          refine .inl (flushArguments_of_word hhead hv hnonneg _ ?_)
          have hlen := hw.length_le
          have hlen8 : (ascii "oreply" ++ CRLF).length = 8 := by decide
          have hwne : w.length ≠ (ascii "oreply" ++ CRLF).length := fun h =>
            hqcut (by rw [hw.eq_of_length h])
          omega

end FlushAll

/-- The parser waits as long as the command word may go on. -/
theorem parse_of_tokenBytes {s : List UInt8} (hs : ∀ b ∈ s, isTokenByte b = true) (ptr : Int) :
    parse U ⟨ptr, s⟩ = .incomplete := by
  by_cases hshort : s.length < 3
  · simp [parse, incompleteIf, hshort]
  · obtain ⟨b, bs, rfl⟩ : ∃ b bs, s = b :: bs := by
      cases s with
      | nil => simp at hshort
      | cons b bs => exact ⟨b, bs, rfl⟩
    have hb := isTokenByte_eq_true_iff.mp (hs b (by simp))
    have hgap : (span isSpace (⟨ptr, b :: bs⟩ : Input) : Verdict Thrown (Token × Input)) =
        .done (⟨ptr, []⟩, ⟨ptr, b :: bs⟩) := span_no_space hb.1 rfl
    have hword : (span isTokenByte (⟨ptr, b :: bs⟩ : Input) : Verdict Thrown (Token × Input)) =
        .incomplete := span_eq_incomplete_iff.mpr hs
    simp only [parse, incompleteIf, if_neg hshort, Verdict.done_bind, hgap]
    simp [failIf, commandWord, hword]

theorem parse_of_word_space (cls : CommandClass) (ptr : Int) :
    parse U ⟨ptr, cls.word ++ [SP]⟩ = .incomplete := by
  obtain ⟨b, bs, hb, hsp, -⟩ := (isToken_word cls).head
  have hlong : ¬ (cls.word ++ [SP]).length < 3 := by
    have hword := three_le_length_word cls
    rw [List.length_append]
    omega
  have hgap : (span isSpace (⟨ptr, cls.word ++ [SP]⟩ : Input) : Verdict Thrown (Token × Input)) =
      .done (⟨ptr, []⟩, ⟨ptr, cls.word ++ [SP]⟩) := span_no_space hsp (by rw [hb]; rfl)
  have hword := span_isToken ptr (isToken_word cls).bytes (stops_space [])
  have hend : (span isSpace (⟨ptr + cls.word.length, [SP]⟩ : Input) :
      Verdict Thrown (Token × Input)) = .incomplete := span_eq_incomplete_iff.mpr (by simp)
  simp only [parse, incompleteIf, if_neg hlong, Verdict.done_bind, hgap]
  simp [failIf, commandWord, hword, hend, classOf_eq_some_iff.mpr rfl]

theorem irregular_of_isAbstract {s : List UInt8} {cmd : MemcachedCommand} (h : Irregular s cmd)
    (hcls : cmd.cls.isAbstract = true) : ∃ rest, s = cmd.cls.word ++ (CRLF ++ rest) := by
  cases h with
  | get cls rest _ => exact ⟨rest, rfl⟩
  | twoBytes cls _ _ _ htwo _ _ =>
    rcases htwo with rfl | rfl | rfl <;>
      simp [CommandClass.isAbstract, CommandClass.isStorage, CommandClass.isRetrieval] at hcls
  | _ => simp [CommandClass.isAbstract, CommandClass.isStorage, CommandClass.isRetrieval] at hcls

theorem firstToken_word_space (cls : CommandClass) (s : List UInt8) :
    firstToken (cls.word ++ SP :: s) = cls.word :=
  firstToken_eq (c := ⟨0, cls.word ++ SP :: s⟩)
    (span_isToken 0 (isToken_word cls).bytes (stops_space s)) (isToken_word cls).nonempty

/-- A key command that is cut off behind its word is not decided: what is decided stays so, and
would consume more than there is. -/
theorem parse_prefix_of_isAbstract {r : Request U} (hcls : r.cls.isAbstract = true) {s : List UInt8}
    (hp : r.cls.word ++ SP :: s <+: r.bytes) (hne : r.cls.word ++ SP :: s ≠ r.bytes) (ptr : Int) :
    parse U ⟨ptr, r.cls.word ++ SP :: s⟩ = .incomplete := by
  by_contra hdecided
  obtain ⟨more, hmore⟩ := hp
  have hbelow := parse_below U ⟨ptr, r.cls.word ++ SP :: s⟩ 0 more
    (.inl ⟨r.cls, hcls, firstToken_word_space r.cls s⟩)
  have hwhole := r.parse_eq ptr []
  simp only [Cursor.move, hmore, Int.add_zero] at hbelow
  rw [List.append_nil] at hwhole
  rw [hwhole] at hbelow
  have hrel := hbelow.rel_of_ne_incomplete hdecided
  generalize hcut : parse U ⟨ptr, r.cls.word ++ SP :: s⟩ = verdict at hrel
  cases hrel with
  | @done cmd _ hmove =>
    have hcmd : cmd.cls = r.cls := by
      rw [← r.cls_command ptr, hmove]
      rfl
    have hconsumed : cmd.inputConsumed = r.bytes.length := by
      rw [← r.inputConsumed_command ptr, hmove]
      rfl
    rcases parse_eq_done_iff.mp hcut with ⟨r', rest, hrest, rfl⟩ | hirregular
    · have hshort : r'.bytes.length = r.bytes.length := by
        rw [r'.inputConsumed_command] at hconsumed
        exact_mod_cast hconsumed
      have hlength : (r.cls.word ++ SP :: s).length = r'.bytes.length + rest.length := by
        simpa using congrArg List.length hrest
      have htotal := congrArg List.length hmore
      rw [List.length_append] at htotal
      have hnil : more = [] := List.eq_nil_of_length_eq_zero (by omega)
      exact hne (by simpa [hnil] using hmore)
    · obtain ⟨rest, hrest⟩ := irregular_of_isAbstract hirregular (hcmd ▸ hcls)
      rw [hcmd] at hrest
      have hspace := List.append_cancel_left hrest
      simp [CRLF, SP, CR] at hspace

/-- The parser waits on every request that is cut off. -/
theorem Request.parse_cut {r : Request U} (hsingle : r.SingleSpaced) {p : List UInt8}
    (hp : p <+: r.bytes) (hne : p ≠ r.bytes) (ptr : Int) : parse U ⟨ptr, p⟩ = .incomplete := by
  have hbytes := hp
  rw [Request.bytes] at hbytes
  rcases prefix_append_cases hbytes with hword | ⟨q, rfl, hqne, hq⟩
  · exact parse_of_tokenBytes (fun b hb => (isToken_word r.cls).bytes b (hword.subset hb)) ptr
  rcases r.isAbstract_or_flushAll with ⟨hcls, hspace⟩ | ⟨f, rfl⟩
  · rw [hspace] at hq
    obtain ⟨s, rfl, -⟩ := prefix_cons_cases hq hqne
    exact parse_prefix_of_isAbstract hcls hp hne ptr
  · simp only [Request.cls, Request.space, Request.header, Request.block, List.append_nil] at hq ⊢
    have hargs (p : List UInt8) (space : Bool) (hspace : f.space = space) (hp : p <+: f.header)
        (hpne : p ≠ []) (hcut : p ≠ f.header) : parse U ⟨ptr, CommandClass.FLUSH_ALL.word ++
          (List.replicate space.toNat SP ++ p)⟩ = .incomplete := by
      obtain ⟨b, bs, hb, hsp, hcr⟩ := f.header_head []
      rw [List.append_nil] at hb
      obtain ⟨q, rfl, -⟩ := prefix_cons_cases (hb ▸ hp) hpne
      have hopens : Opens ⟨ptr, CommandClass.FLUSH_ALL.word ++
          (List.replicate space.toNat SP ++ b :: q)⟩ .FLUSH_ALL space
          ⟨ptr + CommandClass.FLUSH_ALL.word.length + space.toNat, b :: q⟩ :=
        ⟨rfl, rfl, b, q, rfl, hsp, fun h => hcr (hspace.trans h)⟩
      rw [hopens.parse_eq]
      exact flushAll_cut hsingle hp hcut _
    rcases prefix_append_cases hq with hspaces | ⟨p, rfl, hpne, hheader⟩
    · cases hspace : f.space with
      | false =>
        rw [hspace] at hspaces
        exact absurd (List.prefix_nil.mp hspaces) hqne
      | true =>
        rw [hspace] at hspaces
        obtain ⟨rest, rfl, hrest⟩ := prefix_cons_cases hspaces hqne
        rw [List.prefix_nil.mp hrest]
        exact parse_of_word_space .FLUSH_ALL ptr
    · apply hargs p f.space rfl hheader hpne
      rintro rfl
      exact hne (by simp [FlushRequest.bytes, Request.cls])

end Memcarrot.Wire
