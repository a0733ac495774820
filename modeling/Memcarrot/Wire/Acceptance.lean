import Memcarrot.Wire.Language

open Incremental

namespace Memcarrot.Wire

/-- The other inputs that yield a command. -/
inductive Irregular : List UInt8 → MemcachedCommand → Prop where
  | get (cls : CommandClass) (rest : List UInt8) (hcls : cls = .GET ∨ cls = .GETS) :
      Irregular (cls.word ++ (CRLF ++ rest)) { cls, consumed := 2 }
  | flushAll (rest : List UInt8) :
      Irregular (CommandClass.FLUSH_ALL.word ++ SP :: (CRLF ++ rest))
        { cls := .FLUSH_ALL, consumed := 1 }
  | flushWord (word rest : List UInt8) (isToken : IsToken word) (head : word.head? = some LOWER_N)
      (long : 9 ≤ (word ++ (CRLF ++ rest)).length)
      (other : (word ++ (CRLF ++ rest)).take 7 ≠ NOREPLY) :
      Irregular (CommandClass.FLUSH_ALL.word ++ SP :: (word ++ (CRLF ++ rest)))
        { cls := .FLUSH_ALL, consumed := word.length + 2 }
  | twoBytes (cls : CommandClass) (space : Bool) (first second : UInt8)
      (hcls : cls = .QUIT ∨ cls = .VERSION ∨ cls = .SHUTDOWN) (hfirst : first ≠ SP)
      (hspace : space = false → first = CR) :
      Irregular (cls.word ++ (List.replicate space.toNat SP ++ [first, second])) { cls }
  | stats (space : Bool) :
      Irregular (CommandClass.STATS.word ++ (List.replicate space.toNat SP ++ CRLF))
        { cls := .STATS }

theorem Irregular.parse_eq {U : CacheUtils} {bytes : List UInt8} {cmd : MemcachedCommand}
    (h : Irregular bytes cmd) (ptr : Int) : parse U ⟨ptr, bytes⟩ = .done cmd := by
  cases h with
  | get cls rest hcls =>
    have hopens : Opens ⟨ptr, cls.word ++ (CRLF ++ rest)⟩ cls false
        ⟨ptr + cls.word.length, CRLF ++ rest⟩ :=
      ⟨rfl, by simp, CR, LF :: rest, rfl, by decide, fun _ => rfl⟩
    rw [hopens.parse_eq]
    have hconsumed (p : Int) : p + 2 - p = 2 := by omega
    rcases hcls with rfl | rfl
    all_goals
      simp [arguments, retrieval, countTokens, CRLF, exptimeField, CommandClass.isTouch, keys,
        skipCRLF, failIf, hconsumed]
  | flushAll rest =>
    have hopens : Opens ⟨ptr, CommandClass.FLUSH_ALL.word ++ SP :: (CRLF ++ rest)⟩ .FLUSH_ALL true
        ⟨ptr + CommandClass.FLUSH_ALL.word.length + 1, CRLF ++ rest⟩ :=
      ⟨rfl, rfl, CR, LF :: rest, rfl, by decide, fun _ => rfl⟩
    rw [hopens.parse_eq]
    exact FlushRequest.now.flushAll_eq _ rest
  | flushWord word rest hword hn hlong hother =>
    obtain ⟨b, bs, hb, hsp⟩ := hword.append_head_ne_space (CRLF ++ rest)
    have hopens : Opens ⟨ptr, CommandClass.FLUSH_ALL.word ++ SP :: (word ++ (CRLF ++ rest))⟩
        .FLUSH_ALL true ⟨ptr + CommandClass.FLUSH_ALL.word.length + 1, word ++ (CRLF ++ rest)⟩ :=
      ⟨rfl, rfl, b, bs, hb, hsp, by simp⟩
    rw [hopens.parse_eq]
    exact flushAll_word hword hn _ hlong hother
  | twoBytes cls space first second hcls hfirst hspace =>
    have hopens : Opens ⟨ptr, cls.word ++ (List.replicate space.toNat SP ++ [first, second])⟩ cls
        space ⟨ptr + cls.word.length + space.toNat, [first, second]⟩ :=
      ⟨rfl, rfl, first, [second], rfl, hfirst, hspace⟩
    rw [hopens.parse_eq]
    rcases hcls with rfl | rfl | rfl <;> simp [arguments, Wire.twoBytes, incompleteIf]
  | stats space =>
    have hopens : Opens ⟨ptr, CommandClass.STATS.word ++ (List.replicate space.toNat SP ++ CRLF)⟩
        .STATS space ⟨ptr + CommandClass.STATS.word.length + space.toNat, CRLF⟩ :=
      ⟨rfl, rfl, CR, [LF], rfl, by decide, fun _ => rfl⟩
    rw [hopens.parse_eq]
    simp [arguments, Wire.stats, incompleteIf, CRLF]

/-- An input that stands for a request, with what follows it. -/
def Regular (U : CacheUtils) (c : Input) (cmd : MemcachedCommand) : Prop :=
  ∃ (r : Request U) (rest : List UInt8), c.rest = r.bytes ++ rest ∧ cmd = r.command c.ptr

section Opened

variable {U : CacheUtils} {c args : Input} {cls : CommandClass} {space : Bool}
  {cmd : MemcachedCommand}

/-- A request that spells the arguments, too, is a request for the whole input. -/
theorem Opens.regular (h : Opens c cls space args) (r : Request U) (hcls : r.cls = cls)
    (hspace : r.space = space) {rest : List UInt8}
    (hargs : args.rest = r.header ++ (r.block ++ rest)) (hdone : parse U c = .done cmd) :
    Regular U c cmd := by
  have hrest : c.rest = r.bytes ++ rest := by
    rw [h.rest_eq, hargs, Request.bytes, hcls, hspace]
    simp
  refine ⟨r, rest, hrest, ?_⟩
  have heq := r.parse_eq c.ptr rest
  rw [← hrest] at heq
  exact Verdict.done.inj (hdone.symm.trans heq)

/-- Arguments with a key in front are not reached without a space. -/
theorem Opens.space_of_isToken (h : Opens c cls space args) {t s : List UInt8} (ht : IsToken t)
    (hargs : args.rest = t ++ s) : space = true := by
  obtain ⟨x, xs, rfl, -, hcr⟩ := ht.head
  obtain ⟨b, bs, hb, -, hspace⟩ := h.head
  cases space with
  | true => rfl
  | false =>
    have hx : x = b := by simpa using congrArg List.head? (hargs.symm.trans hb)
    exact absurd (hx.trans (hspace rfl)) hcr

theorem regular_of_storage (h : Opens c cls space args) (hcls : cls.isStorage = true)
    (hstorage : storage U cls args = .done cmd) (hdone : parse U c = .done cmd) :
    Regular U c cmd := by
  obtain ⟨r, rest, rfl, hargs, -⟩ := storage_sound hcls hstorage
  have hspace := h.space_of_isToken (t := r.key.1)
    (s := fieldsBytes r.numbers ++ lineEndBytes r.gap ++ (r.block ++ rest)) r.key.2
    (by simp [hargs, StorageRequest.header])
  exact h.regular (.storage r) rfl hspace.symm hargs hdone

theorem regular_of_keyNumber (h : Opens c cls space args)
    (hcls : cls = .INCR ∨ cls = .DECR ∨ cls = .TOUCH) (harguments : arguments U cls args = .done cmd)
    (hdone : parse U c = .done cmd) : Regular U c cmd := by
  obtain ⟨r, rest, rfl, hargs, -⟩ := keyNumber_sound hcls harguments
  have hspace := h.space_of_isToken (t := r.key.1)
    (s := fieldsBytes [r.number] ++ lineEndBytes r.gap ++ rest) r.key.2
    (by simp [hargs, KeyNumberRequest.header])
  exact h.regular (.keyNumber r) rfl hspace.symm hargs hdone

theorem regular_of_delete (h : Opens c .DELETE space args) (hdelete : delete args = .done cmd)
    (hdone : parse U c = .done cmd) : Regular U c cmd := by
  obtain ⟨r, rest, hargs, -⟩ := delete_sound U hdelete
  have hspace := h.space_of_isToken (t := r.key.1) (s := lineEndBytes r.gap ++ rest) r.key.2
    (by simp [hargs, DeleteRequest.header])
  exact h.regular (.delete r) rfl hspace.symm hargs hdone

/-- A retrieval request whose line ends at once has no fields. -/
theorem RetrievalRequest.empty_of_head (r : RetrievalRequest U) {s bs : List UInt8}
    (h : r.header ++ s = CR :: bs) : r.exptime = none ∧ r.keys = [] := by
  have hne (t s' : List UInt8) (ht : IsToken t) : t ++ s' ≠ CR :: bs := by
    obtain ⟨b, rest, rfl, -, hcr⟩ := ht.head
    simp [hcr]
  have hgap := r.gap_pos
  unfold RetrievalRequest.header RetrievalRequest.exptimeBytes at h
  cases hexptime : r.exptime with
  | some n =>
    rw [hexptime, Option.elim_some, List.append_assoc] at h
    exact absurd h (hne _ _ n.isToken)
  | none =>
    refine ⟨rfl, ?_⟩
    have hzero : r.gap = 0 := by
      simp only [hexptime, Option.isSome_none, Bool.false_eq_true, iff_false] at hgap
      omega
    cases hkeys : r.keys with
    | nil => rfl
    | cons key keys =>
      simp only [hexptime, hkeys, hzero, keysBytes, Option.elim_none, List.replicate_zero,
        List.nil_append, List.append_assoc] at h
      exact absurd h (hne _ _ key.2)

theorem regular_or_irregular_of_retrieval (h : Opens c cls space args)
    (hcls : cls.isRetrieval = true) (hretrieval : retrieval U cls args = .done cmd)
    (hdone : parse U c = .done cmd) : Regular U c cmd ∨ Irregular c.rest cmd := by
  obtain ⟨b, bs, hb, hsp, hcr⟩ := h.head
  obtain ⟨r, rest, rfl, hargs, hcmd⟩ := retrieval_sound hcls (by simpa [hb] using hsp) hretrieval
  cases space with
  | true => exact .inl (h.regular (.retrieval r) rfl rfl hargs hdone)
  | false =>
    obtain ⟨hexptime, hkeys⟩ := r.empty_of_head (hargs.symm.trans (hb.trans (by rw [hcr rfl])))
    have htouch := r.exptime_isSome
    have hget : r.cls = .GET ∨ r.cls = .GETS := by
      cases hc : r.cls <;>
        simp_all [CommandClass.isRetrieval, CommandClass.isTouch]
    have hheader : r.header = CRLF := by
      simp [RetrievalRequest.header, RetrievalRequest.exptimeBytes, hexptime, hkeys, keysBytes]
    have hcommand : cmd = { cls := r.cls, consumed := 2 } := by
      simp [hcmd, RetrievalRequest.command, hexptime, hkeys, keySlices, hheader, CRLF]
    refine .inr ?_
    rw [h.rest_eq, hargs, hheader, hcommand]
    exact .get r.cls rest hget

theorem regular_or_irregular_of_flushAll (h : Opens c .FLUSH_ALL space args)
    (hflush : flushAll U args = .done cmd) (hdone : parse U c = .done cmd) :
    Regular U c cmd ∨ Irregular c.rest cmd := by
  rcases flushAll_sound hflush with ⟨r, rest, hargs, hcmd⟩ |
    ⟨word, rest, hword, hn, hargs, hlong, hother, rfl⟩
  · by_cases hspace : r.space = space
    · exact .inl (h.regular (.flushAll r) rfl hspace hargs hdone)
    · cases r with
      | now =>
        have htrue : space = true := by simpa [FlushRequest.space] using Ne.symm hspace
        refine .inr ?_
        rw [h.rest_eq, hargs, htrue, hcmd]
        exact .flushAll rest
      | nowNoreply =>
        have ht : IsToken NOREPLY := by decide
        have htrue := h.space_of_isToken (t := NOREPLY) (s := CRLF ++ rest) ht
          (by simp [hargs, FlushRequest.header])
        exact absurd htrue.symm hspace
      | delayed delay gap hdelay hnonneg =>
        have htrue := h.space_of_isToken (t := delay.token) (s := lineEndBytes gap ++ rest)
          delay.isToken (by simp [hargs, FlushRequest.header])
        exact absurd htrue.symm hspace
  · have htrue := h.space_of_isToken hword hargs
    refine .inr ?_
    rw [hargs] at hlong hother
    rw [h.rest_eq, hargs, htrue]
    exact .flushWord word rest hword hn hlong hother

theorem irregular_of_twoBytes (h : Opens c cls space args)
    (hcls : cls = .QUIT ∨ cls = .VERSION ∨ cls = .SHUTDOWN)
    (htwo : twoBytes cls args = .done cmd) : Irregular c.rest cmd := by
  obtain ⟨b, bs, hb, hsp, hcr⟩ := h.head
  simp only [twoBytes, Verdict.bind_eq_done_iff, incompleteIf_eq_done_iff, not_not, exists_const,
    Verdict.pure_eq_done, Verdict.done.injEq] at htwo
  obtain ⟨hlength, rfl⟩ := htwo
  obtain ⟨second, rfl⟩ : ∃ second, bs = [second] :=
    List.length_eq_one_iff.mp (by simpa [hb] using hlength)
  rw [h.rest_eq, hb]
  exact .twoBytes cls space b second hcls hsp hcr

theorem irregular_of_stats (h : Opens c .STATS space args) (hstats : stats args = .done cmd) :
    Irregular c.rest cmd := by
  simp only [stats, Verdict.bind_eq_done_iff, incompleteIf_eq_done_iff, exists_const] at hstats
  by_cases hcrlf : args.rest = CRLF
  · simp only [hcrlf, if_true, Verdict.pure_eq_done, Verdict.done.injEq] at hstats
    obtain ⟨-, rfl⟩ := hstats
    rw [h.rest_eq, hcrlf]
    exact .stats space
  · simp [hcrlf] at hstats

theorem Opens.regular_or_irregular (h : Opens c cls space args) (hdone : parse U c = .done cmd) :
    Regular U c cmd ∨ Irregular c.rest cmd := by
  have harguments := h.parse_eq.symm.trans hdone
  cases cls with
  | SET | ADD | CAS | APPEND | PREPEND | REPLACE =>
    exact .inl (regular_of_storage h rfl harguments hdone)
  | GET | GETS | GAT | GATS => exact regular_or_irregular_of_retrieval h rfl harguments hdone
  | INCR | DECR | TOUCH => exact .inl (regular_of_keyNumber h (by simp) harguments hdone)
  | DELETE => exact .inl (regular_of_delete h harguments hdone)
  | FLUSH_ALL => exact regular_or_irregular_of_flushAll h harguments hdone
  | QUIT | VERSION | SHUTDOWN => exact .inr (irregular_of_twoBytes h (by simp) harguments)
  | STATS => exact .inr (irregular_of_stats h harguments)
  | SAVE | BGSAVE => cases harguments

end Opened

/-- The language the parser accepts, with the command it yields for each of its inputs. -/
theorem parse_eq_done_iff {U : CacheUtils} {c : Input} {cmd : MemcachedCommand} :
    parse U c = .done cmd ↔ Regular U c cmd ∨ Irregular c.rest cmd := by
  constructor
  · intro h
    rcases parse_cases U c with ⟨cls, space, args, hopens⟩ | ⟨hstop, -⟩ | hstop | ⟨name, -, hstop⟩
    · exact hopens.regular_or_irregular h
    all_goals
      rw [hstop] at h
      cases h
  · rintro (⟨r, rest, hrest, rfl⟩ | h)
    · have heq := r.parse_eq c.ptr rest
      rwa [← hrest] at heq
    · exact h.parse_eq c.ptr

end Memcarrot.Wire
