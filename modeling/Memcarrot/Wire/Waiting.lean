import Memcarrot.Wire.BrokenLines
import Memcarrot.Wire.FlushRequests
import Memcarrot.Wire.TokenCount

open Incremental

namespace Memcarrot.Wire

section Lines

variable {U : CacheUtils}

theorem infix_of_span {keep : UInt8 → Bool} {c next : Input} {run : Token}
    (h : (span keep c : Verdict Thrown _) = .done (run, next)) (hkeep : keep CR = false)
    (hline : CRLF <:+: c.rest) : CRLF <:+: next.rest := by
  obtain ⟨hrest, -, -, hbytes, -⟩ := span_eq_done_iff.mp h
  rw [hrest, crlf_infix_append] at hline
  · exact hline
  · intro hmem
    simp [hbytes CR hmem] at hkeep

/-- The keys of a complete line are decided, and the end of the line stands behind them. -/
theorem keys_of_line {left i : Nat} {c : Input} (h : CRLF <:+: c.rest) :
    keys left i c ≠ .incomplete ∧
      ∀ slices next, keys left i c = .done (slices, next) → CRLF <:+: next.rest := by
  induction left generalizing i c with
  | zero =>
    refine ⟨by simp [keys], fun slices next hdone => ?_⟩
    simp only [keys, Verdict.pure_eq_done, Verdict.done.injEq, Prod.mk.injEq] at hdone
    rwa [← hdone.2]
  | succ left ih =>
    have hstep (gap key : Token) (afterGap afterKey : Input)
        (hgap : (span isSpace c : Verdict Thrown _) = .done (gap, afterGap))
        (hkey : (span isTokenByte afterGap : Verdict Thrown _) = .done (key, afterKey)) :
        CRLF <:+: afterKey.rest :=
      infix_of_span hkey (by decide) (infix_of_span hgap (by decide) h)
    constructor
    · intro hinc
      simp only [keys, Verdict.bind_eq_incomplete_iff, failIf_ne_incomplete, failIf_eq_done_iff,
        span_space_ne_incomplete (cr_mem_of_line h), false_or, exists_const, Prod.exists,
        Verdict.pure_eq_done, reduceCtorEq, and_false, exists_false, or_false] at hinc
      obtain ⟨gap, afterGap, hgap, -, hkey | ⟨key, afterKey, hkey, -, hrest⟩⟩ := hinc
      · exact span_token_ne_incomplete
          (cr_mem_of_line (infix_of_span hgap (by decide) h)) hkey
      · exact (ih (hstep gap key afterGap afterKey hgap hkey)).1 hrest
    · intro slices next hdone
      simp only [keys, Verdict.bind_eq_done_iff, failIf_eq_done_iff, exists_const, Prod.exists,
        Verdict.pure_eq_done, Verdict.done.injEq, Prod.mk.injEq] at hdone
      obtain ⟨gap, afterGap, hgap, -, key, afterKey, hkey, -, others, last, hrest, -, rfl⟩ := hdone
      exact (ih (hstep gap key afterGap afterKey hgap hkey)).2 others last hrest

theorem exptimeField_of_line (cls : CommandClass) {c : Input} (h : CRLF <:+: c.rest) :
    exptimeField U cls c ≠ .incomplete ∧
      ∀ exptime next, exptimeField U cls c = .done (exptime, next) → CRLF <:+: next.rest := by
  unfold exptimeField
  cases cls.isTouch with
  | false =>
    refine ⟨by simp, fun exptime next hdone => ?_⟩
    simp only [Bool.false_eq_true, if_false, Verdict.pure_eq_done, Verdict.done.injEq,
      Prod.mk.injEq] at hdone
    rwa [← hdone.2]
  | true =>
    constructor
    · intro hinc
      simp only [if_true, Verdict.bind_eq_incomplete_iff, failIf_ne_incomplete,
        failIf_eq_done_iff, span_space_ne_incomplete (cr_mem_of_line h), false_or, exists_const,
        Prod.exists, number_ne_incomplete, Verdict.pure_eq_done, reduceCtorEq, and_false,
        exists_false, or_false] at hinc
      obtain ⟨gap, afterGap, hgap, htoken⟩ := hinc
      exact span_token_ne_incomplete
        (cr_mem_of_line (infix_of_span hgap (by decide) h)) htoken
    · intro exptime next hdone
      simp only [if_true, Verdict.bind_eq_done_iff, failIf_eq_done_iff, exists_const, Prod.exists,
        Verdict.pure_eq_done, Verdict.done.injEq, Prod.mk.injEq] at hdone
      obtain ⟨gap, afterGap, hgap, token, last, htoken, -, value, -, -, rfl⟩ := hdone
      exact infix_of_span htoken (by decide) (infix_of_span hgap (by decide) h)

/-- A complete line of a retrieval command is always decided. -/
theorem retrieval_ne_incomplete {cls : CommandClass} {args : Input} (h : CRLF <:+: args.rest) :
    retrieval U cls args ≠ .incomplete := by
  intro hinc
  cases hcount : countTokens false args.rest with
  | none => exact countTokens_eq_none_iff.mp hcount (cr_mem_of_line h)
  | some count =>
    simp only [retrieval, hcount, Verdict.rethrow_eq_incomplete_iff] at hinc
    by_cases hnone : cls.isTouch = true ∧ count = 0
    · simp [hnone] at hinc
    simp only [if_neg hnone, Verdict.bind_eq_incomplete_iff, Prod.exists, Verdict.pure_eq_done,
      reduceCtorEq, and_false, exists_false, or_false] at hinc
    obtain ⟨hexptime, hafter⟩ := exptimeField_of_line (U := U) cls h
    rcases hinc with hinc | ⟨exptime, c0, hdone, hinc | ⟨slices, c1, hkeys, hinc⟩⟩
    · exact hexptime hinc
    · exact (keys_of_line (hafter _ _ hdone)).1 hinc
    · have hend := (keys_of_line (hafter _ _ hdone)).2 _ _ hkeys
      exact skipCRLF_ne_incomplete (two_le_length_of_line hend) hinc

/-- The arguments of a complete flush_all line on which the parser waits: a short word that starts
with n, alone or behind a delay. -/
inductive FlushStalls (U : CacheUtils) : List UInt8 → Prop where
  | word (s : List UInt8) (head : s.head? = some LOWER_N) (short : s.length < 9) :
      FlushStalls U s
  | delayed (delay : Number U) (s : List UInt8) (isDelay : delay.token.head? ≠ some LOWER_N)
      (nonneg : 0 ≤ FLUSH_ALL.toInt delay.value) (short : ShortNoreply s) :
      FlushStalls U (delay.token ++ s)

theorem checkNoreply_length {word back next : Input} {noreply : Bool}
    (h : checkNoreply word back = .done (noreply, next)) (hback : 2 ≤ back.rest.length) :
    2 ≤ next.rest.length := by
  rcases checkNoreply_eq_done_iff.mp h with ⟨-, -, -, hlong⟩ | ⟨-, rfl, -⟩
  · exact hlong
  · exact hback

theorem flushArguments_length {token : Token} {args c next : Input} {delay : Int} {noreply : Bool}
    (h : flushArguments U token args c = .done (delay, noreply, next))
    (hc : 2 ≤ c.rest.length) : 2 ≤ next.rest.length := by
  unfold flushArguments at h
  by_cases hn : token.items.head? = some LOWER_N
  · simp only [hn, ne_eq, not_true_eq_false, if_false, Verdict.bind_eq_done_iff, Prod.exists,
      Verdict.pure_eq_done, Verdict.done.injEq, Prod.mk.injEq] at h
    obtain ⟨noreply, last, hcheck, -, -, rfl⟩ := h
    exact checkNoreply_length hcheck hc
  · simp only [hn, ne_eq, not_false_eq_true, if_true, Verdict.bind_eq_done_iff] at h
    obtain ⟨v, -, -, -, h⟩ := h
    split at h
    · split at h
      · simp only [Verdict.pure_eq_done, Verdict.done.injEq, Prod.mk.injEq] at h
        rwa [← h.2.2]
      · simp only [Verdict.bind_eq_done_iff, Prod.exists, Verdict.pure_eq_done,
          Verdict.done.injEq, Prod.mk.injEq] at h
        obtain ⟨noreply, last, hcheck, -, -, rfl⟩ := h
        exact checkNoreply_length hcheck hc
    · simp only [Verdict.pure_eq_done, Verdict.done.injEq, Prod.mk.injEq] at h
      rwa [← h.2.2]

theorem flushStalls_iff_of_head {s : List UInt8} (h : s.head? = some LOWER_N) :
    FlushStalls U s ↔ s.length < 9 := by
  refine ⟨fun hstalls => ?_, .word s h⟩
  cases hstalls with
  | word _ _ hshort => exact hshort
  | delayed delay t hdelay _ _ =>
    obtain ⟨d, ds, hd, -⟩ := delay.isToken.head
    have hhead : (delay.token ++ t).head? = delay.token.head? := by simp [hd]
    exact absurd (hhead.symm.trans h) hdelay

theorem flushStalls_delayed_iff {token s : List UInt8} (htoken : IsToken token) (hs : Stops s)
    (hn : token.head? ≠ some LOWER_N) :
    FlushStalls U (token ++ s) ↔
      ∃ v, U.strToLongDirect token = some v ∧ 0 ≤ FLUSH_ALL.toInt v ∧ ShortNoreply s := by
  constructor
  · intro hstalls
    generalize hline : token ++ s = line at hstalls
    cases hstalls with
    | word _ hword _ =>
      obtain ⟨b, bs, hb, -⟩ := htoken.head
      have hhead : line.head? = token.head? := by simp [← hline, hb]
      exact absurd (hhead.symm.trans hword) hn
    | delayed delay t _ hnonneg hshort =>
      obtain ⟨rfl, rfl⟩ := htoken.append_inj delay.isToken hs hshort.stops hline
      exact ⟨delay.value, delay.value_eq, hnonneg, hshort⟩
  · rintro ⟨v, hv, hnonneg, hshort⟩
    exact .delayed ⟨token, v, htoken, hv⟩ s hn hnonneg hshort

theorem flushArguments_eq_incomplete_iff {token : Token} {args c : Input} (hstop : Stops c.rest)
    (h : CRLF <:+: c.rest) (htoken : IsToken token.items)
    (hargs : args.rest = token.items ++ c.rest) :
    flushArguments U token args c = .incomplete ↔ FlushStalls U args.rest := by
  by_cases hn : token.items.head? = some LOWER_N
  · obtain ⟨b, bs, hb, -⟩ := htoken.head
    have hhead : args.rest.head? = some LOWER_N := by
      rw [← hn, hargs, hb]
      rfl
    rw [flushStalls_iff_of_head hhead]
    simp [flushArguments, hn, Verdict.bind_eq_incomplete_iff, checkNoreply_eq_incomplete_iff,
      hhead]
  · rw [hargs, flushStalls_delayed_iff htoken hstop hn]
    cases hgap : (span isSpace c : Verdict Thrown (Token × Input)) with
    | incomplete => exact absurd hgap (span_space_ne_incomplete (cr_mem_of_line h))
    | failed e => exact absurd hgap span_ne_failed
    | done read =>
      obtain ⟨gap, word⟩ := read
      obtain ⟨n, x, rest, rfl, rfl, hx, hrest⟩ := span_space_eq_done_iff.mp hgap
      rw [hrest, shortNoreply_iff hx]
      simp only [flushArguments, hn, ne_eq, not_false_eq_true, if_true,
        Verdict.bind_eq_incomplete_iff, number_ne_incomplete, false_or, failIf_ne_incomplete,
        failIf_eq_done_iff, exists_const, hgap, List.replicate_eq_nil_iff, number_eq_done_iff,
        Int.not_lt]
      refine exists_congr fun v => and_congr_right fun _ => and_congr_right fun _ => ?_
      by_cases hzero : n = 0
      · simp [hzero]
      · simp [hzero, Verdict.bind_eq_incomplete_iff, checkNoreply_eq_incomplete_iff]

theorem flushAll_eq_incomplete_iff {args : Input} (h : CRLF <:+: args.rest) :
    flushAll U args = .incomplete ↔ FlushStalls U args.rest := by
  have hcr := cr_mem_of_line h
  cases hspan : (span isTokenByte args : Verdict Thrown (Token × Input)) with
  | incomplete => exact absurd hspan (span_token_ne_incomplete hcr)
  | failed e => exact absurd hspan span_ne_failed
  | done read =>
    obtain ⟨token, c⟩ := read
    obtain ⟨hrest, -, -, hbytes, hstop⟩ := span_token_eq_done_iff.mp hspan
    have hc := infix_of_span hspan (by decide) h
    by_cases hempty : token.items = []
    · have hargs : args.rest = c.rest := by simpa [hempty] using hrest
      have hcrlf : ∀ msg, skipCRLF msg c ≠ .incomplete := fun msg =>
        skipCRLF_ne_incomplete (two_le_length_of_line hc)
      have hne : ¬ FlushStalls U args.rest := by
        intro hstalls
        rw [hargs] at hstalls
        generalize c.rest = s at hstalls hstop
        cases hstalls with
        | word _ hword _ => cases hstop.head LOWER_N hword
        | delayed delay t _ _ _ =>
          obtain ⟨d, ds, hd, hsp, hcr'⟩ := delay.isToken.head
          have hdelim := hstop.head d (by rw [hd]; rfl)
          rcases isTokenByte_eq_false_iff.mp hdelim with rfl | rfl
          · exact hsp rfl
          · exact hcr' rfl
      simp [flushAll, hspan, hempty, Verdict.bind_eq_incomplete_iff, hcrlf, hne]
    · rw [← flushArguments_eq_incomplete_iff hstop hc ⟨hempty, hbytes⟩ hrest]
      simp only [flushAll, hspan, Verdict.rethrow_eq_incomplete_iff, Verdict.done_bind, ne_eq,
        hempty, not_false_eq_true, if_true, Verdict.bind_eq_incomplete_iff, Prod.exists,
        Verdict.pure_eq_done, reduceCtorEq, and_false, exists_false, or_false]
      apply or_iff_left
      rintro ⟨delay, noreply, next, hdone, hcrlf⟩
      exact skipCRLF_ne_incomplete
        (flushArguments_length hdone (two_le_length_of_line hc)) hcrlf

/-- The line of a storage request whose data block has not arrived in full. -/
def AwaitsBlock (U : CacheUtils) (cls : CommandClass) (s : List UInt8) : Prop :=
  ∃ (r : StorageRequest U) (rest : List UInt8), r.cls = cls ∧ s = r.header ++ rest ∧
    rest.length < r.block.length

theorem storage_eq_incomplete_iff {cls : CommandClass} {args : Input} (hcls : cls.isStorage = true)
    (h : CRLF <:+: args.rest) :
    storage U cls args = .incomplete ↔
      LineStalls U (storageSpecs cls) args.rest ∨ AwaitsBlock U cls args.rest := by
  rw [storage_eq_line]
  simp only [Verdict.rethrow_eq_incomplete_iff, Verdict.bind_eq_incomplete_iff,
    line_eq_incomplete_iff _ h, Prod.exists]
  apply or_congr_right
  constructor
  · rintro ⟨key, values, noreply, c, hline, hblock⟩
    obtain ⟨k, numbers, gap, hfills, -, rfl, -, hrest, -⟩ := line_eq_done_iff.mp hline
    obtain ⟨flags, exptime, size, cas, rfl, hcas, hflags, hsize⟩ := storage_numbers hfills
    simp only [storageBlock, Verdict.bind_eq_incomplete_iff, incompleteIf_eq_incomplete_iff,
      List.map_cons, List.getD_cons_zero, List.getD_cons_succ, Verdict.pure_eq_done, reduceCtorEq,
      and_false, exists_false, or_false] at hblock
    let r : StorageRequest U :=
      { cls, key := k, flags, exptime, size, cas, gap
        block := List.replicate (size.value + 2).toNat 0
        isStorage := hcls
        cas_isSome := hcas
        flags_range := hflags
        size_range := hsize
        block_length := by
          simp only [List.length_replicate]
          omega }
    refine ⟨r, c.rest, rfl, ?_, ?_⟩
    · simp only [r, StorageRequest.header, StorageRequest.numbers, hrest, List.append_assoc]
    · have hlength := r.block_length
      simp only [r] at hlength ⊢
      omega
  · rintro ⟨r, rest, rfl, hrest, hshort⟩
    obtain ⟨ptr, bytes⟩ := args
    simp only at hrest
    subst hrest
    refine ⟨_, _, _, _, r.line_eq _ ptr rest, ?_⟩
    have hlength := r.block_length
    simp only [storageBlock, Verdict.bind_eq_incomplete_iff, incompleteIf_eq_incomplete_iff,
      StorageRequest.numbers, List.map_cons, List.getD_cons_zero, List.getD_cons_succ]
    exact .inl (by omega)

theorem keyNumber_eq_incomplete_iff {msg : String}
    {command : Int → Int → Int → Bool → Int → MemcachedCommand} {args : Input}
    (h : CRLF <:+: args.rest) :
    keyNumber U msg command args = .incomplete ↔ LineStalls U numberSpecs args.rest := by
  rw [keyNumber_eq_line]
  simp [Verdict.bind_eq_incomplete_iff, line_eq_incomplete_iff _ h]

theorem delete_eq_incomplete_iff {args : Input} (h : CRLF <:+: args.rest) :
    delete args = .incomplete ↔ LineStalls U [] args.rest := by
  rw [delete_eq_line U]
  simp [Verdict.bind_eq_incomplete_iff, line_eq_incomplete_iff _ h]

end Lines

/-- The arguments in a complete line on which the parser of a command waits, for a reason other
than a data block that is still to come. -/
def ArgumentsStall (U : CacheUtils) (cls : CommandClass) (s : List UInt8) : Prop :=
  match cls with
  | .SET | .ADD | .CAS | .APPEND | .PREPEND | .REPLACE => LineStalls U (storageSpecs cls) s
  | .INCR | .DECR | .TOUCH => LineStalls U numberSpecs s
  | .DELETE => LineStalls U [] s
  | .GET | .GETS | .GAT | .GATS | .STATS => False
  | .FLUSH_ALL => FlushStalls U s
  | .QUIT | .VERSION | .SHUTDOWN => s.length ≠ 2
  | .SAVE | .BGSAVE => True

theorem arguments_eq_incomplete_iff {U : CacheUtils} {cls : CommandClass} {args : Input}
    (h : CRLF <:+: args.rest) :
    arguments U cls args = .incomplete ↔
      ArgumentsStall U cls args.rest ∨ (cls.isStorage = true ∧ AwaitsBlock U cls args.rest) := by
  cases cls with
  | SET | ADD | CAS | APPEND | PREPEND | REPLACE =>
    simp only [arguments, ArgumentsStall, CommandClass.isStorage, true_and]
    exact storage_eq_incomplete_iff rfl h
  | GET | GETS | GAT | GATS =>
    simp only [arguments, ArgumentsStall, CommandClass.isStorage, Bool.false_eq_true, false_and,
      or_false, iff_false]
    exact retrieval_ne_incomplete h
  | INCR | DECR | TOUCH =>
    simp only [arguments, incr, touch, ArgumentsStall, CommandClass.isStorage, Bool.false_eq_true,
      false_and, or_false]
    exact keyNumber_eq_incomplete_iff h
  | DELETE =>
    simp only [arguments, ArgumentsStall, CommandClass.isStorage, Bool.false_eq_true, false_and,
      or_false]
    exact delete_eq_incomplete_iff h
  | FLUSH_ALL =>
    simp only [arguments, ArgumentsStall, CommandClass.isStorage, Bool.false_eq_true, false_and,
      or_false]
    exact flushAll_eq_incomplete_iff h
  | QUIT | VERSION | SHUTDOWN =>
    simp [arguments, twoBytes, Verdict.bind_eq_incomplete_iff, ArgumentsStall,
      CommandClass.isStorage]
  | STATS =>
    have hlong : ¬ args.rest.length < 2 := by
      have hlength := two_le_length_of_line h
      omega
    have hstats : stats args ≠ .incomplete := by
      simp only [stats, incompleteIf, if_neg hlong, Verdict.done_bind]
      split <;> simp
    simpa [arguments, ArgumentsStall, CommandClass.isStorage] using hstats
  | SAVE | BGSAVE => simp [arguments, ArgumentsStall]

end Memcarrot.Wire
