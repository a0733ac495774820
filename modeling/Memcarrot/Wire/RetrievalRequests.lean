import Memcarrot.Wire.Requests
import Memcarrot.Wire.TokenCount

open Incremental

namespace Memcarrot.Wire

/-- Keys that follow another token, each behind one space. -/
def spacedKeys (keys : List Key) : List UInt8 := keys.flatMap fun key => SP :: key.1

/-- The entries of the key table for keys that stand at `ptr`, one space apart. -/
def keySlices : Int → List Key → List Slice
  | _, [] => []
  | ptr, key :: keys => ⟨ptr, key.1.length⟩ :: keySlices (ptr + key.1.length + 1) keys

/-- The keys of a retrieval command behind `gap` spaces. -/
def keysBytes (gap : Nat) : List Key → List UInt8
  | [] => []
  | key :: keys => List.replicate gap SP ++ (key.1 ++ spacedKeys keys)

/-- get, gets, gat or gats. Only the space between the expiration time and the first key may be
repeated. -/
structure RetrievalRequest (U : CacheUtils) where
  cls : CommandClass
  exptime : Option (Number U)
  gap : Nat
  keys : List Key
  isRetrieval : cls.isRetrieval = true
  exptime_isSome : exptime.isSome = cls.isTouch
  gap_pos : 0 < gap ↔ exptime.isSome = true

namespace RetrievalRequest

variable {U : CacheUtils}

/-- The token of the expiration time, which get and gets do not have. -/
def exptimeBytes (r : RetrievalRequest U) : List UInt8 := r.exptime.elim [] Number.token

def header (r : RetrievalRequest U) : List UInt8 :=
  r.exptimeBytes ++ (keysBytes r.gap r.keys ++ CRLF)

def bytes (r : RetrievalRequest U) : List UInt8 := r.cls.word ++ SP :: r.header

def command (r : RetrievalRequest U) (buf : Int) : MemcachedCommand :=
  { cls := r.cls
    keys := keySlices (buf + r.cls.word.length + 1 + r.exptimeBytes.length + r.gap) r.keys
    exptime := r.exptime.elim 0 Number.value
    consumed := r.header.length }

end RetrievalRequest

@[simp] theorem spacedKeys_nil : spacedKeys [] = [] := rfl

@[simp] theorem spacedKeys_cons (key : Key) (keys : List Key) :
    spacedKeys (key :: keys) = SP :: (key.1 ++ spacedKeys keys) := by
  simp [spacedKeys]

theorem spacedKeys_stops {s : List UInt8} (keys : List Key) (hs : Stops s) :
    Stops (spacedKeys keys ++ s) := by
  cases keys with
  | nil => exact hs
  | cons key keys =>
    rw [spacedKeys_cons]
    exact stops_space _

theorem keysBytes_stops {gap : Nat} {s : List UInt8} (keys : List Key) (hgap : 0 < gap)
    (hs : Stops s) : Stops (keysBytes gap keys ++ s) := by
  cases keys with
  | nil => exact hs
  | cons key keys =>
    obtain ⟨n, rfl⟩ : ∃ n, gap = n + 1 := ⟨gap - 1, by omega⟩
    rw [keysBytes, List.replicate_succ]
    exact stops_space _

theorem countTokens_spacedKeys (keys : List Key) (s : List UInt8) :
    countTokens false (spacedKeys keys ++ (CRLF ++ s)) = some keys.length := by
  induction keys with
  | nil => rfl
  | cons key keys ih =>
    have hstop : Stops (spacedKeys keys ++ (CRLF ++ s)) := spacedKeys_stops keys (stops_cr _)
    have hskip := countTokens_spaces 1 (key.1 ++ (spacedKeys keys ++ (CRLF ++ s)))
    rw [spacedKeys_cons, List.cons_append, List.append_assoc]
    apply hskip.trans
    rw [countTokens_token key.2 hstop, ih]
    rfl

theorem countTokens_keysBytes (gap : Nat) (keys : List Key) (s : List UInt8) :
    countTokens false (keysBytes gap keys ++ (CRLF ++ s)) = some keys.length := by
  cases keys with
  | nil => rfl
  | cons key keys =>
    have hstop : Stops (spacedKeys keys ++ (CRLF ++ s)) := spacedKeys_stops keys (stops_cr _)
    rw [keysBytes, List.append_assoc, List.append_assoc, countTokens_spaces,
      countTokens_token key.2 hstop, countTokens_spacedKeys]
    rfl

/-- One more key is a token behind spaces, of which there is exactly one from the second key
on. -/
theorem keys_succ_eq_done_iff {left i : Nat} {c next : Input} {slices : List Slice} :
    keys (left + 1) i c = .done (slices, next) ↔
      ∃ (n : Nat) (key : Key) (afterKey : Input) (others : List Slice),
        c.rest = List.replicate n SP ++ (key.1 ++ afterKey.rest) ∧ Stops afterKey.rest ∧
        afterKey.ptr = c.ptr + n + key.1.length ∧ (i ≠ 0 → n = 1) ∧
        slices = ⟨c.ptr + n, key.1.length⟩ :: others ∧
        keys left (i + 1) afterKey = .done (others, next) := by
  simp only [keys, Verdict.bind_eq_done_iff, failIf_eq_done_iff, Prod.exists, exists_const,
    Verdict.pure_eq_done, Verdict.done.injEq, Prod.mk.injEq]
  constructor
  · rintro ⟨gap, afterGap, hgap, hone, key, afterKey, hkey, hne, others, next, hnext, rfl, rfl⟩
    obtain ⟨n, b, rest, rfl, rfl, hb, hrest⟩ := span_space_eq_done_iff.mp hgap
    obtain ⟨htoken, hptr, hafter, hbytes, hstop⟩ := span_token_eq_done_iff.mp hkey
    simp only at htoken hptr hafter
    refine ⟨n, ⟨key.items, hne, hbytes⟩, afterKey, others, ?_, hstop, hafter, ?_, ?_, hnext⟩
    · rw [hrest, htoken]
    · simpa using hone
    · rw [hptr]
  · rintro ⟨n, key, afterKey, others, hrest, hstop, hafter, hone, rfl, hnext⟩
    obtain ⟨b, bs, hkey, hsp, -⟩ := key.2.head
    refine ⟨⟨c.ptr, List.replicate n SP⟩, ⟨c.ptr + n, key.1 ++ afterKey.rest⟩, ?_, ?_,
      ⟨c.ptr + n, key.1⟩, afterKey, ?_, key.2.nonempty, others, next, hnext, rfl, rfl⟩
    · rw [span_space_eq_done_iff]
      exact ⟨n, b, bs ++ afterKey.rest, rfl, by simp [hkey], hsp, by simp [hrest, hkey]⟩
    · simpa using hone
    · exact span_token_eq_done_iff.mpr ⟨rfl, rfl, hafter, key.2.bytes, hstop⟩

/-- Keys behind the first one are read back as they were written. -/
theorem keys_spacedKeys (ks : List Key) {i : Nat} (hi : i ≠ 0) (ptr : Int) {s : List UInt8}
    (hs : Stops s) :
    keys ks.length i ⟨ptr, spacedKeys ks ++ s⟩ =
      .done (keySlices (ptr + 1) ks, ⟨ptr + (spacedKeys ks).length, s⟩) := by
  induction ks generalizing i ptr with
  | nil => simp [keys, keySlices]
  | cons key ks ih =>
    rw [List.length_cons, keys_succ_eq_done_iff]
    refine ⟨1, key, ⟨ptr + 1 + key.1.length, spacedKeys ks ++ s⟩, _, ?_, spacedKeys_stops ks hs, rfl,
      fun _ => rfl, rfl, ?_⟩
    · simp
    · rw [ih (by omega)]
      congr 2
      simp only [spacedKeys_cons, List.length_cons, List.length_append, Cursor.mk.injEq, and_true]
      omega

/-- The keys of a request are read back as they were written. -/
theorem keys_keysBytes (gap : Nat) (ks : List Key) (ptr : Int) {s : List UInt8} (hs : Stops s) :
    keys ks.length 0 ⟨ptr, keysBytes gap ks ++ s⟩ =
      .done (keySlices (ptr + gap) ks, ⟨ptr + (keysBytes gap ks).length, s⟩) := by
  cases ks with
  | nil => simp [keys, keySlices, keysBytes]
  | cons key ks =>
    rw [List.length_cons, keys_succ_eq_done_iff]
    refine ⟨gap, key, ⟨ptr + gap + key.1.length, spacedKeys ks ++ s⟩, _, ?_, spacedKeys_stops ks hs,
      rfl, by simp, rfl, ?_⟩
    · simp [keysBytes]
    · rw [keys_spacedKeys ks (by omega) _ hs]
      congr 2
      simp only [keysBytes, List.length_append, List.length_replicate, Cursor.mk.injEq, and_true]
      omega

theorem exptimeField_eq {U : CacheUtils} (r : RetrievalRequest U) (ptr : Int) {s : List UInt8}
    (hs : r.exptime.isSome = true → Stops s) :
    exptimeField U r.cls ⟨ptr, r.exptimeBytes ++ s⟩ =
      .done (r.exptime.elim 0 Number.value, ⟨ptr + r.exptimeBytes.length, s⟩) := by
  unfold exptimeField RetrievalRequest.exptimeBytes
  rw [← r.exptime_isSome]
  cases hexptime : r.exptime with
  | none => simp
  | some n =>
    obtain ⟨b, bs, htoken, hsp, -⟩ := n.isToken.head
    have hgap : (span isSpace (⟨ptr, n.token ++ s⟩ : Input) : Verdict Thrown _) =
        .done (⟨ptr, []⟩, ⟨ptr, n.token ++ s⟩) :=
      span_no_space hsp (by rw [htoken]; rfl)
    have hspan : (span isTokenByte (⟨ptr, n.token ++ s⟩ : Input) : Verdict Thrown _) =
        .done (⟨ptr, n.token⟩, ⟨ptr + n.token.length, s⟩) :=
      span_token_eq_done_iff.mpr ⟨rfl, rfl, rfl, n.isToken.bytes, hs (by rw [hexptime]; rfl)⟩
    simp [hgap, hspan, failIf, n.isToken.nonempty]

namespace RetrievalRequest

variable {U : CacheUtils}

theorem stops_keysBytes (r : RetrievalRequest U) (s : List UInt8)
    (h : r.exptime.isSome = true) : Stops (keysBytes r.gap r.keys ++ (CRLF ++ s)) :=
  keysBytes_stops r.keys (r.gap_pos.mpr h) (stops_cr _)

theorem countTokens_header (r : RetrievalRequest U) (s : List UInt8) :
    countTokens false (r.header ++ s) = some (r.keys.length + r.cls.isTouch.toNat) := by
  have hkeys := countTokens_keysBytes r.gap r.keys s
  have hstop := r.stops_keysBytes s
  rw [← r.exptime_isSome]
  simp only [header, exptimeBytes, List.append_assoc]
  cases hexptime : r.exptime with
  | none => simpa using hkeys
  | some n =>
    rw [Option.elim_some, countTokens_token n.isToken (hstop (by rw [hexptime]; rfl)), hkeys]
    rfl

/-- The arguments of a retrieval request are read back as they were written. -/
theorem retrieval_eq (r : RetrievalRequest U) (ptr : Int) (rest : List UInt8) :
    retrieval U r.cls ⟨ptr, r.header ++ rest⟩ =
      .done (r.command (ptr - r.cls.word.length - 1)) := by
  have hstop : Stops (CRLF ++ rest) := stops_cr _
  have hexptime := exptimeField_eq r ptr (r.stops_keysBytes rest)
  have hkeys := keys_keysBytes r.gap r.keys (ptr + r.exptimeBytes.length) hstop
  have hcrlf (at_ : Int) : skipCRLF "'\r\n' was expected" ⟨at_, CRLF ++ rest⟩ =
      .done ⟨at_ + 2, rest⟩ := skipCRLF_eq_done_iff.mpr ⟨rfl, rfl⟩
  have hcount : (if r.cls.isTouch = true then r.keys.length + r.cls.isTouch.toNat - 1
      else r.keys.length + r.cls.isTouch.toNat) = r.keys.length := by
    cases r.cls.isTouch <;> rfl
  have htouch : ¬ (r.cls.isTouch = true ∧ r.keys.length + r.cls.isTouch.toNat = 0) := by
    cases r.cls.isTouch <;> simp
  unfold retrieval
  simp only [r.countTokens_header, if_neg htouch, hcount]
  rw [show r.header ++ rest = r.exptimeBytes ++ (keysBytes r.gap r.keys ++ (CRLF ++ rest)) by
    simp [header], hexptime, Verdict.done_bind, hkeys, Verdict.done_bind, hcrlf]
  have hslices : ptr - r.cls.word.length - 1 + r.cls.word.length + 1 = ptr := by omega
  simp only [Verdict.done_bind, Verdict.pure_eq_done, Verdict.rethrow_done, Verdict.done.injEq,
    command, hslices, MemcachedCommand.mk.injEq, true_and, and_true, header, List.length_append,
    CRLF, List.length_cons, List.length_nil]
  omega

end RetrievalRequest

theorem keys_sound {left i : Nat} (hi : i ≠ 0) {c next : Input} {slices : List Slice}
    (h : keys left i c = .done (slices, next)) :
    ∃ ks : List Key, ks.length = left ∧ c.rest = spacedKeys ks ++ next.rest := by
  induction left generalizing i c slices with
  | zero =>
    simp only [keys, Verdict.pure_eq_done, Verdict.done.injEq, Prod.mk.injEq] at h
    exact ⟨[], rfl, by simp [h.2]⟩
  | succ left ih =>
    obtain ⟨n, key, afterKey, others, hrest, -, -, hone, -, hnext⟩ := keys_succ_eq_done_iff.mp h
    obtain ⟨ks, hlength, hks⟩ := ih (by omega) hnext
    refine ⟨key :: ks, by simp [hlength], ?_⟩
    simp [hrest, hone hi, hks]

/-- The keys that are accepted stand behind some spaces, one where there are no keys. -/
theorem keys_zero_sound {left : Nat} {c next : Input} {slices : List Slice}
    (h : keys left 0 c = .done (slices, next)) (default : Nat) :
    ∃ (gap : Nat) (ks : List Key), ks.length = left ∧ c.rest = keysBytes gap ks ++ next.rest ∧
      (ks = [] → gap = default) := by
  cases left with
  | zero =>
    simp only [keys, Verdict.pure_eq_done, Verdict.done.injEq, Prod.mk.injEq] at h
    exact ⟨default, [], rfl, by simp [keysBytes, h.2], fun _ => rfl⟩
  | succ left =>
    obtain ⟨n, key, afterKey, others, hrest, -, -, -, -, hnext⟩ := keys_succ_eq_done_iff.mp h
    obtain ⟨ks, hlength, hks⟩ := keys_sound (by omega) hnext
    exact ⟨n, key :: ks, by simp [hlength], by simp [keysBytes, hrest, hks], by simp⟩

theorem keysBytes_gap_eq_zero {gap : Nat} {ks : List Key} {s : List UInt8}
    (hgap : ks = [] → gap = 0) (hhead : (keysBytes gap ks ++ s).head? ≠ some SP) : gap = 0 := by
  cases ks with
  | nil => exact hgap rfl
  | cons key ks =>
    cases gap with
    | zero => rfl
    | succ n => simp [keysBytes, List.replicate_succ] at hhead

theorem keysBytes_gap_pos {gap : Nat} {ks : List Key} {s : List UInt8}
    (hgap : ks = [] → gap = 1) (hstop : Stops (keysBytes gap ks ++ s)) : 0 < gap := by
  cases ks with
  | nil => simp [hgap rfl]
  | cons key ks =>
    cases gap with
    | zero =>
      -- a key would begin with a byte that ends tokens
      obtain ⟨stop, tail, hbytes, hstop⟩ := hstop
      obtain ⟨b, bs, hkey, hsp, hcr⟩ := key.2.head
      have hb : b = stop := by simpa [keysBytes, hkey] using congrArg List.head? hbytes
      rw [← hb] at hstop
      exact absurd (isTokenByte_eq_false_iff.mp hstop) (by simp [hsp, hcr])
    | succ n => omega

/-- The arguments of a retrieval command up to the end of their line. They may begin with spaces,
which the parser of the command word does not pass on. -/
structure RetrievalLine (U : CacheUtils) where
  lead : Nat
  exptime : Option (Number U)
  gap : Nat
  keys : List Key
  gap_pos : exptime.isSome = true → 0 < gap

namespace RetrievalLine

variable {U : CacheUtils}

def exptimeBytes (l : RetrievalLine U) : List UInt8 := l.exptime.elim [] Number.token

def bytes (l : RetrievalLine U) : List UInt8 :=
  List.replicate l.lead SP ++ (l.exptimeBytes ++ keysBytes l.gap l.keys)

/-- The entries of the key table for a line that stands at `ptr`. -/
def slices (l : RetrievalLine U) (ptr : Int) : List Slice :=
  keySlices (ptr + l.lead + l.exptimeBytes.length + l.gap) l.keys

end RetrievalLine

theorem keys_slices {left : Nat} {c next : Input} {slices : List Slice} {gap : Nat} {ks : List Key}
    (h : keys left 0 c = .done (slices, next)) (hlength : ks.length = left)
    (hrest : c.rest = keysBytes gap ks ++ next.rest) (hstop : Stops next.rest) :
    slices = keySlices (c.ptr + gap) ks := by
  have hread := keys_keysBytes gap ks c.ptr hstop
  rw [← hrest, hlength] at hread
  exact (Prod.mk.inj (Verdict.done.inj (h.symm.trans hread))).1

/-- Every retrieval command that is accepted is read from a line. -/
theorem retrieval_line {U : CacheUtils} {cls : CommandClass} {args : Input}
    {cmd : MemcachedCommand} (h : retrieval U cls args = .done cmd) :
    ∃ (l : RetrievalLine U) (rest : List UInt8), args.rest = l.bytes ++ (CRLF ++ rest) ∧
      l.exptime.isSome = cls.isTouch ∧
      (l.exptime = none → l.lead = 0 ∧ (l.keys = [] → l.gap = 0)) ∧
      cmd.keys = l.slices args.ptr ∧ cmd.exptime = l.exptime.elim 0 Number.value := by
  unfold retrieval at h
  cases hcount : countTokens false args.rest with
  | none => simp [hcount] at h
  | some count =>
    simp only [hcount] at h
    by_cases hnone : cls.isTouch = true ∧ count = 0
    · simp [hnone] at h
    simp only [if_neg hnone, Verdict.rethrow_eq_done_iff, Verdict.bind_eq_done_iff,
      Prod.exists, Verdict.pure_eq_done, Verdict.done.injEq] at h
    obtain ⟨exptime, c0, hexptime, slices, c1, hkeys, c2, hcrlf, rfl⟩ := h
    obtain ⟨hc1, -⟩ := skipCRLF_eq_done_iff.mp hcrlf
    have hend : Stops c1.rest := by
      rw [hc1]
      exact stops_cr _
    unfold exptimeField at hexptime
    cases htouch : cls.isTouch with
    | false =>
      simp only [htouch, Bool.false_eq_true, if_false, Verdict.pure_eq_done, Verdict.done.injEq,
        Prod.mk.injEq] at hexptime
      obtain ⟨rfl, rfl⟩ := hexptime
      obtain ⟨gap, ks, hlength, hrest, hgap⟩ := keys_zero_sound hkeys 0
      refine ⟨⟨0, none, gap, ks, by simp⟩, c2.rest, ?_, rfl, fun _ => ⟨rfl, hgap⟩, ?_, rfl⟩
      · simp [RetrievalLine.bytes, RetrievalLine.exptimeBytes, hrest, hc1]
      · rw [keys_slices hkeys hlength hrest hend]
        simp [RetrievalLine.slices, RetrievalLine.exptimeBytes]
    | true =>
      simp only [htouch, if_true, Verdict.bind_eq_done_iff, failIf_eq_done_iff, exists_const,
        Prod.exists, Verdict.pure_eq_done, Verdict.done.injEq, Prod.mk.injEq] at hexptime
      obtain ⟨gap, afterGap, hspace, token, afterToken, hspan, hne, value, hvalue, rfl, rfl⟩ :=
        hexptime
      obtain ⟨n, b, rest, rfl, rfl, hb, hargs⟩ := span_space_eq_done_iff.mp hspace
      obtain ⟨htoken, -, hptr, hbytes, hstop⟩ := span_token_eq_done_iff.mp hspan
      obtain ⟨gap, ks, hlength, hrest, hgap⟩ := keys_zero_sound hkeys 1
      have hpos := keysBytes_gap_pos hgap (hrest ▸ hstop)
      simp only at htoken hptr
      refine ⟨⟨n, some ⟨token.items, value, ⟨hne, hbytes⟩, number_eq_done_iff.mp hvalue⟩, gap, ks,
        fun _ => hpos⟩, c2.rest, ?_, rfl, by simp, ?_, rfl⟩
      · simp [RetrievalLine.bytes, RetrievalLine.exptimeBytes, hargs, htoken, hrest, hc1]
      · rw [keys_slices hkeys hlength hrest hend, hptr]
        rfl

/-- Every retrieval command that is accepted stands for a retrieval request. -/
theorem retrieval_sound {U : CacheUtils} {cls : CommandClass} {args : Input}
    {cmd : MemcachedCommand} (hcls : cls.isRetrieval = true)
    (hhead : args.rest.head? ≠ some SP) (h : retrieval U cls args = .done cmd) :
    ∃ (r : RetrievalRequest U) (rest : List UInt8), r.cls = cls ∧
      args.rest = r.header ++ rest ∧ cmd = r.command (args.ptr - cls.word.length - 1) := by
  obtain ⟨l, rest, hrest, htouch, hnone, -, -⟩ := retrieval_line h
  have hlead : l.lead = 0 := by
    cases hlead : l.lead with
    | zero => rfl
    | succ n => simp [hrest, RetrievalLine.bytes, hlead, List.replicate_succ] at hhead
  have hheader : args.rest = l.exptimeBytes ++ (keysBytes l.gap l.keys ++ CRLF) ++ rest := by
    simp [hrest, RetrievalLine.bytes, hlead]
  have hgap : 0 < l.gap ↔ l.exptime.isSome = true := by
    refine ⟨fun hpos => ?_, l.gap_pos⟩
    by_contra hsome
    have hexptime : l.exptime = none := by simpa using hsome
    have hbytes : l.exptimeBytes = [] := by rw [RetrievalLine.exptimeBytes, hexptime]; rfl
    rw [hheader, hbytes, List.nil_append, List.append_assoc] at hhead
    exact hpos.ne' (keysBytes_gap_eq_zero (hnone hexptime).2 hhead)
  let r : RetrievalRequest U := ⟨cls, l.exptime, l.gap, l.keys, hcls, htouch, hgap⟩
  refine ⟨r, rest, rfl, hheader, ?_⟩
  have heq := r.retrieval_eq args.ptr rest
  rw [show r.header ++ rest = args.rest from hheader.symm] at heq
  exact Verdict.done.inj (h.symm.trans heq)

end Memcarrot.Wire
