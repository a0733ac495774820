import Memcarrot.Wire.Opening
import Memcarrot.Wire.TokenCount

open Incremental

namespace Memcarrot

/-- IllegalFormatException or its subclass UnsupportedCommand, which is what parse declares. -/
def Thrown.isIllegalFormat : Thrown → Bool
  | .illegalFormat _ | .unsupportedCommand _ => true
  | _ => false

/-- What the parsers throw under the handler for NumberFormatException. -/
def Thrown.isFormat : Thrown → Bool
  | .numberFormat => true
  | e => e.isIllegalFormat

/-- The messages are short texts, with a long behind one of them. -/
def Thrown.isShort : Thrown → Bool
  | .illegalFormat msg => msg.length ≤ 40
  | _ => true

theorem catchNumberFormat_isIllegalFormat {msg : String} (hmsg : msg.length ≤ 40) {e : Thrown}
    (h : e.isFormat = true ∧ e.isShort = true) :
    (catchNumberFormat msg e).isIllegalFormat = true ∧
      (catchNumberFormat msg e).isShort = true := by
  cases e <;> simp_all [catchNumberFormat, Thrown.isFormat, Thrown.isIllegalFormat, Thrown.isShort]

theorem length_toString_long {value : Int} (hlo : -2 ^ 63 ≤ value) (hhi : value < 2 ^ 63) :
    (toString value).length ≤ 20 := by
  cases value with
  | ofNat n =>
    show n.repr.length ≤ 20
    have hn : n < 10 ^ 20 := by
      simp only [Int.ofNat_eq_natCast] at hhi
      omega
    exact (Nat.length_repr_le_iff (by decide)).mpr hn
  | negSucc n =>
    show ("-" ++ (n + 1).repr).length ≤ 20
    have hn : n + 1 < 10 ^ 19 := by omega
    have hdigits := (Nat.length_repr_le_iff (by decide)).mpr hn
    rw [String.length_append, show "-".length = 1 from rfl]
    omega

namespace Wire

/-- The failures of a field or a line. -/
abbrev FormatOnly {α : Type} (v : Verdict Thrown α) : Prop :=
  Verdict.FailsOnly (fun e => e.isFormat = true ∧ e.isShort = true) v

abbrev IllegalFormatOnly {α : Type} (v : Verdict Thrown α) : Prop :=
  Verdict.FailsOnly (fun e => e.isIllegalFormat = true ∧ e.isShort = true) v

theorem isShort_illegalFormat {msg : String} (hmsg : msg.length ≤ 40) :
    (Thrown.illegalFormat msg).isShort = true :=
  decide_eq_true hmsg

theorem formatOnly_done {α : Type} (a : α) : FormatOnly (.done a) :=
  .of_ne_failed (by simp)

theorem formatOnly_incompleteIf (condition : Prop) [Decidable condition] :
    FormatOnly (incompleteIf condition) :=
  .of_ne_failed fun _ => incompleteIf_ne_failed

theorem failsOnly_failIf {P : Thrown → Prop} {condition : Prop} [Decidable condition] {msg : String}
    (hP : condition → P (.illegalFormat msg)) : Verdict.FailsOnly P (failIf condition msg) := by
  intro e he
  obtain ⟨hcondition, rfl⟩ := failIf_eq_failed_iff.mp he
  exact hP hcondition

theorem formatOnly_failIf {condition : Prop} [Decidable condition] {msg : String}
    (hmsg : msg.length ≤ 40) : FormatOnly (failIf condition msg) :=
  failsOnly_failIf fun _ => ⟨rfl, isShort_illegalFormat hmsg⟩

theorem formatOnly_span (keep : UInt8 → Bool) (c : Input) :
    FormatOnly (span keep c : Verdict Thrown _) :=
  .of_ne_failed fun _ => span_ne_failed

theorem formatOnly_number (U : CacheUtils) (token : Token) : FormatOnly (number U token) := by
  unfold number
  cases U.strToLongDirect token.items with
  | some value => exact formatOnly_done value
  | none =>
    intro e he
    cases he
    exact ⟨rfl, rfl⟩

theorem formatOnly_keyField (c : Input) : FormatOnly (keyField c) :=
  (formatOnly_span _ c).bind fun _ _ =>
    (formatOnly_incompleteIf _).bind fun _ _ => formatOnly_done _

theorem formatOnly_nextField {msg : String} (hmsg : msg.length ≤ 40) (c : Input) :
    FormatOnly (nextField msg c) :=
  (formatOnly_span _ c).bind fun _ _ =>
    (formatOnly_incompleteIf _).bind fun _ _ =>
      (formatOnly_failIf hmsg).bind fun _ _ =>
        (formatOnly_span _ _).bind fun _ _ =>
          (formatOnly_incompleteIf _).bind fun _ _ => formatOnly_done _

theorem formatOnly_checkNoreply (word back : Input) : FormatOnly (checkNoreply word back) :=
  .of_ne_failed fun _ => checkNoreply_ne_failed

theorem failsOnly_skipCRLF {P : Thrown → Prop} {msg : String} (hP : P (.illegalFormat msg))
    (c : Input) : Verdict.FailsOnly P (skipCRLF msg c) := by
  unfold skipCRLF
  split
  · exact (failsOnly_failIf fun _ => hP).bind fun _ _ =>
      (failsOnly_failIf fun _ => hP).bind fun _ _ => .of_ne_failed (by simp)
  · exact .of_ne_failed (by simp)

theorem failsOnly_lineEnd {P : Thrown → Prop} {msg : String} (hP : P (.illegalFormat msg))
    (c : Input) : Verdict.FailsOnly P (lineEnd msg c) := by
  refine Verdict.FailsOnly.bind ?_ fun _ _ =>
    (failsOnly_skipCRLF hP _).bind fun _ _ => .of_ne_failed (by simp)
  exact Verdict.FailsOnly.bind (.of_ne_failed fun _ => span_ne_failed) fun _ _ =>
    .of_ne_failed fun _ => checkNoreply_ne_failed

theorem formatOnly_skipCRLF {msg : String} (hmsg : msg.length ≤ 40) (c : Input) :
    FormatOnly (skipCRLF msg c) :=
  failsOnly_skipCRLF ⟨rfl, isShort_illegalFormat hmsg⟩ c

theorem formatOnly_lineEnd {msg : String} (hmsg : msg.length ≤ 40) (c : Input) :
    FormatOnly (lineEnd msg c) :=
  failsOnly_lineEnd ⟨rfl, isShort_illegalFormat hmsg⟩ c

/-- The size in the message is a long. -/
theorem formatOnly_valueSize {U : CacheUtils} {token : Token} {valSize : Int}
    (h : number U token = .done valSize) (condition : Prop) [Decidable condition] :
    FormatOnly (failIf condition ("illegal value size: " ++ toString valSize)) := by
  have hvalue : U.strToLongDirect token.items = some valSize := by
    unfold number at h
    split at h
    · cases h
      assumption
    · cases h
  obtain ⟨hlo, hhi⟩ := U.strToLongDirect_long token.items valSize hvalue
  have hdigits := length_toString_long hlo hhi
  refine formatOnly_failIf ?_
  rw [String.length_append, show "illegal value size: ".length = 20 from rfl]
  omega

theorem formatOnly_casField (U : CacheUtils) (cls : CommandClass) (c : Input) :
    FormatOnly (casField U cls c) := by
  unfold casField
  cases cls.isCAS with
  | true =>
    exact (formatOnly_nextField (by decide) c).bind fun _ _ =>
      (formatOnly_number U _).bind fun _ _ => formatOnly_done _
  | false => exact formatOnly_done _

theorem illegalFormatOnly_storage (U : CacheUtils) (cls : CommandClass) (args : Input) :
    IllegalFormatOnly (storage U cls args) := by
  refine Verdict.FailsOnly.rethrow ?_ fun e => catchNumberFormat_isIllegalFormat (by decide)
  refine (formatOnly_keyField args).bind fun _ _ => ?_
  refine (formatOnly_nextField (by decide) _).bind fun _ _ => ?_
  refine (formatOnly_number U _).bind fun _ _ => ?_
  refine (formatOnly_failIf (by decide)).bind fun _ _ => ?_
  refine (formatOnly_nextField (by decide) _).bind fun _ _ => ?_
  refine (formatOnly_number U _).bind fun _ _ => ?_
  refine (formatOnly_nextField (by decide) _).bind fun _ _ => ?_
  refine (formatOnly_number U _).bind fun valSize hnumber => ?_
  refine (formatOnly_valueSize hnumber _).bind fun _ _ => ?_
  refine (formatOnly_casField U cls _).bind fun _ _ => ?_
  refine (formatOnly_lineEnd (by decide) _).bind fun _ _ => ?_
  exact (formatOnly_incompleteIf _).bind fun _ _ => formatOnly_done _

theorem illegalFormatOnly_keyNumber (U : CacheUtils) {msg : String} (hmsg : msg.length ≤ 40)
    (command : Int → Int → Int → Bool → Int → MemcachedCommand) (args : Input) :
    IllegalFormatOnly (keyNumber U msg command args) := by
  refine Verdict.FailsOnly.rethrow ?_ fun e => catchNumberFormat_isIllegalFormat (by decide)
  refine (formatOnly_keyField args).bind fun _ _ => ?_
  refine (formatOnly_nextField (by decide) _).bind fun _ _ => ?_
  refine (formatOnly_number U _).bind fun _ _ => ?_
  exact (formatOnly_lineEnd hmsg _).bind fun _ _ => formatOnly_done _

theorem formatOnly_exptimeField (U : CacheUtils) (cls : CommandClass) (c : Input) :
    FormatOnly (exptimeField U cls c) := by
  unfold exptimeField
  cases cls.isTouch with
  | true =>
    exact (formatOnly_span _ c).bind fun _ _ =>
      (formatOnly_span _ _).bind fun _ _ =>
        (formatOnly_failIf (by decide)).bind fun _ _ =>
          (formatOnly_number U _).bind fun _ _ => formatOnly_done _
  | false => exact formatOnly_done _

theorem formatOnly_keys (left i : Nat) (c : Input) : FormatOnly (keys left i c) := by
  induction left generalizing i c with
  | zero => exact formatOnly_done _
  | succ left ih =>
    exact (formatOnly_span _ c).bind fun _ _ =>
      (formatOnly_failIf (by decide)).bind fun _ _ =>
        (formatOnly_span _ _).bind fun _ _ =>
          (formatOnly_failIf (by decide)).bind fun _ _ =>
            (ih _ _).bind fun _ _ => formatOnly_done _

/-- A retrieval command fails as declared unless it allocates its key table for the number of
tokens less one where there is no token. -/
theorem illegalFormatOnly_retrieval (U : CacheUtils) {cls : CommandClass} {args : Input}
    (h : ¬ (cls.isTouch = true ∧ countTokens false args.rest = some 0)) :
    IllegalFormatOnly (retrieval U cls args) := by
  refine Verdict.FailsOnly.rethrow ?_ fun e => catchNumberFormat_isIllegalFormat (by decide)
  cases hcount : countTokens false args.rest with
  | none => exact .of_ne_failed (by simp)
  | some count =>
    have hne : ¬ (cls.isTouch = true ∧ count = 0) :=
      fun hzero => h ⟨hzero.1, by rw [hcount, hzero.2]⟩
    simp only [if_neg hne]
    exact (formatOnly_exptimeField U cls args).bind fun _ _ =>
      (formatOnly_keys _ _ _).bind fun _ _ =>
        (formatOnly_skipCRLF (by decide) _).bind fun _ _ => formatOnly_done _

theorem formatOnly_flushArguments (U : CacheUtils) (token : Token) (args c : Input) :
    FormatOnly (flushArguments U token args c) := by
  unfold flushArguments
  split
  · refine (formatOnly_number U _).bind fun _ _ => ?_
    refine (formatOnly_failIf (by decide)).bind fun _ _ => ?_
    split
    · split
      · exact formatOnly_done _
      · exact (formatOnly_checkNoreply _ _).bind fun _ _ => formatOnly_done _
    · exact formatOnly_done _
  · exact (formatOnly_checkNoreply _ _).bind fun _ _ => formatOnly_done _

theorem illegalFormatOnly_flushAll (U : CacheUtils) (args : Input) :
    IllegalFormatOnly (flushAll U args) := by
  refine Verdict.FailsOnly.rethrow ?_ fun e => catchNumberFormat_isIllegalFormat (by decide)
  refine (formatOnly_span _ args).bind fun _ _ => ?_
  refine Verdict.FailsOnly.bind ?_ fun _ _ =>
    (formatOnly_skipCRLF (by decide) _).bind fun _ _ => formatOnly_done _
  split
  · exact formatOnly_flushArguments U _ _ _
  · exact formatOnly_done _

theorem illegalFormatOnly_delete (args : Input) : IllegalFormatOnly (delete args) := by
  have hkey : IllegalFormatOnly (keyField args) := by
    refine .of_ne_failed fun e he => ?_
    rcases Verdict.bind_eq_failed_iff.mp he with he | ⟨read, -, he⟩
    · exact span_ne_failed he
    · rcases Verdict.bind_eq_failed_iff.mp he with he | ⟨-, -, he⟩
      · exact incompleteIf_ne_failed he
      · cases he
  exact hkey.bind fun _ _ =>
    (failsOnly_lineEnd ⟨rfl, rfl⟩ _).bind fun _ _ => .of_ne_failed (by simp)

theorem illegalFormatOnly_stats (args : Input) : IllegalFormatOnly (stats args) := by
  refine Verdict.FailsOnly.bind (.of_ne_failed fun _ => incompleteIf_ne_failed) fun _ _ => ?_
  split
  · exact .of_ne_failed (by simp)
  · intro e he
    cases he
    exact ⟨rfl, rfl⟩

theorem illegalFormatOnly_arguments (U : CacheUtils) {cls : CommandClass} {args : Input}
    (h : ¬ (cls.isTouch = true ∧ countTokens false args.rest = some 0)) :
    IllegalFormatOnly (arguments U cls args) := by
  cases cls with
  | SET | ADD | CAS | APPEND | PREPEND | REPLACE => exact illegalFormatOnly_storage U _ args
  | GET | GETS | GAT | GATS => exact illegalFormatOnly_retrieval U h
  | INCR | DECR | TOUCH =>
    simp only [arguments, incr, touch]
    exact illegalFormatOnly_keyNumber U (by decide) _ args
  | DELETE => exact illegalFormatOnly_delete args
  | FLUSH_ALL => exact illegalFormatOnly_flushAll U args
  | QUIT | VERSION | SHUTDOWN =>
    exact Verdict.FailsOnly.bind (.of_ne_failed fun _ => incompleteIf_ne_failed) fun _ _ =>
      .of_ne_failed (by simp)
  | STATS => exact illegalFormatOnly_stats args
  | SAVE | BGSAVE => exact .of_ne_failed (by simp [arguments])

/-- gat or gats with nothing behind it in the line. -/
def BareTouch (s : List UInt8) : Prop :=
  ∃ (cls : CommandClass) (space : Bool) (rest : List UInt8), (cls = .GAT ∨ cls = .GATS) ∧
    s = cls.word ++ (List.replicate space.toNat SP ++ CR :: rest)

theorem parse_of_bareTouch {U : CacheUtils} {c : Input} (h : BareTouch c.rest) :
    parse U c = .failed .negativeArraySize := by
  obtain ⟨cls, space, rest, hcls, hrest⟩ := h
  have hopens : Opens c cls space ⟨c.ptr + cls.word.length + space.toNat, CR :: rest⟩ :=
    ⟨hrest, rfl, CR, rest, rfl, by decide, fun _ => rfl⟩
  rw [hopens.parse_eq]
  rcases hcls with rfl | rfl <;>
    simp [arguments, retrieval, countTokens, CommandClass.isTouch, catchNumberFormat]

theorem countTokens_eq_zero_iff {b : UInt8} {s : List UInt8} (hb : b ≠ SP) :
    countTokens false (b :: s) = some 0 ↔ b = CR := by
  by_cases hcr : b = CR <;> simp [countTokens, hcr, hb]

/-- Parsing fails as declared on everything but a bare gat or gats. -/
theorem illegalFormatOnly_parse (U : CacheUtils) {c : Input} (h : ¬ BareTouch c.rest) :
    IllegalFormatOnly (parse U c) := by
  rcases parse_cases U c with ⟨cls, space, args, hopens⟩ | ⟨hstop, -⟩ | hstop | ⟨name, -, hstop⟩
  · rw [hopens.parse_eq]
    apply illegalFormatOnly_arguments U
    rintro ⟨htouch, hcount⟩
    obtain ⟨b, bs, hargs, hb, -⟩ := hopens.head
    rw [hargs, countTokens_eq_zero_iff hb] at hcount
    refine h ⟨cls, space, bs, ?_, by rw [hopens.rest_eq, hargs, hcount]⟩
    cases cls <;> simp_all [CommandClass.isTouch]
  all_goals
    rw [hstop]
    intro e he
    cases he
  all_goals exact ⟨rfl, rfl⟩

end Wire

end Memcarrot
