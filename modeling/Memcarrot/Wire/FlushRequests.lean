import Memcarrot.Wire.Requests

open Incremental

namespace Memcarrot.Wire

/-- flush_all, at once or after a delay. -/
inductive FlushRequest (U : CacheUtils) where
  | now
  | nowNoreply
  | delayed (delay : Number U) (gap : Option Nat) (isDelay : delay.token.head? ≠ some LOWER_N)
      (nonneg : 0 ≤ FLUSH_ALL.toInt delay.value)

namespace FlushRequest

variable {U : CacheUtils}

/-- The line behind the command word and its space, if there is one. -/
def header : FlushRequest U → List UInt8
  | now => CRLF
  | nowNoreply => NOREPLY ++ CRLF
  | delayed delay gap _ _ => delay.token ++ lineEndBytes gap

/-- Whether a space follows the command word. -/
def space : FlushRequest U → Bool
  | now => false
  | _ => true

def bytes (r : FlushRequest U) : List UInt8 :=
  CommandClass.FLUSH_ALL.word ++ (List.replicate r.space.toNat SP ++ r.header)

def command : FlushRequest U → MemcachedCommand
  | now => { cls := .FLUSH_ALL, consumed := 1 }
  | nowNoreply => { cls := .FLUSH_ALL, noreply := true, consumed := 9 }
  | delayed delay gap _ _ =>
    { cls := .FLUSH_ALL, noreply := gap.isSome, delay := FLUSH_ALL.toInt delay.value
      consumed := delay.token.length + (lineEndBytes gap).length }

end FlushRequest

theorem skipCRLF_bytes (msg : String) (ptr : Int) (s : List UInt8) :
    skipCRLF msg ⟨ptr, CRLF ++ s⟩ = .done ⟨ptr + 2, s⟩ :=
  skipCRLF_eq_done_iff.mpr ⟨rfl, rfl⟩

theorem span_isToken (ptr : Int) {t s : List UInt8} (ht : ∀ b ∈ t, isTokenByte b = true)
    (hs : Stops s) :
    (span isTokenByte (⟨ptr, t ++ s⟩ : Input) : Verdict Thrown _) =
      .done (⟨ptr, t⟩, ⟨ptr + t.length, s⟩) :=
  span_token_eq_done_iff.mpr ⟨rfl, rfl, rfl, ht, hs⟩

theorem checkNoreply_noreply (ptr : Int) (back : Input) (s : List UInt8) :
    checkNoreply ⟨ptr, NOREPLY ++ (CRLF ++ s)⟩ back = .done (true, ⟨ptr + 7, CRLF ++ s⟩) :=
  checkNoreply_eq_done_iff.mpr (.inl ⟨rfl, rfl, rfl, by simp [CRLF]⟩)

theorem flushArguments_delayed {U : CacheUtils} {delay : Number U} (gap : Option Nat)
    (hdelay : delay.token.head? ≠ some LOWER_N) (hrange : 0 ≤ FLUSH_ALL.toInt delay.value)
    (ptr at_ : Int) (args : Input) (s : List UInt8) :
    ∃ next : Input, flushArguments U ⟨ptr, delay.token⟩ args ⟨at_, lineEndBytes gap ++ s⟩ =
        .done (FLUSH_ALL.toInt delay.value, gap.isSome, next) ∧
      next.rest = CRLF ++ s ∧ next.ptr = at_ + (lineEndBytes gap).length - 2 := by
  have hrange' : ¬ FLUSH_ALL.toInt delay.value < 0 := by omega
  cases gap with
  | none =>
    refine ⟨⟨at_, CRLF ++ s⟩, ?_, rfl, by simp [lineEndBytes, CRLF]⟩
    have hgap : (span isSpace (⟨at_, CRLF ++ s⟩ : Input) : Verdict Thrown _) =
        .done (⟨at_, []⟩, ⟨at_, CRLF ++ s⟩) :=
      span_no_space (by decide : CR ≠ SP) rfl
    simp [flushArguments, hdelay, failIf, hrange', lineEndBytes, hgap]
  | some extra =>
    refine ⟨⟨at_ + (extra + 1 : Nat) + 7, CRLF ++ s⟩, ?_, rfl, ?_⟩
    · have hgap : (span isSpace (⟨at_, lineEndBytes (some extra) ++ s⟩ : Input) :
          Verdict Thrown _) = .done (⟨at_, List.replicate (extra + 1) SP⟩,
            ⟨at_ + (extra + 1 : Nat), NOREPLY ++ (CRLF ++ s)⟩) := by
        rw [span_space_eq_done_iff]
        exact ⟨extra + 1, LOWER_N, ascii "oreply" ++ (CRLF ++ s), rfl, rfl, by decide,
          by simp [lineEndBytes]; rfl⟩
      simp [flushArguments, hdelay, failIf, hrange', hgap, checkNoreply_noreply]
    · simp [lineEndBytes, NOREPLY, CRLF, ascii]
      omega

/-- The arguments of flush_all are read back as they were written. -/
theorem FlushRequest.flushAll_eq {U : CacheUtils} (r : FlushRequest U) (ptr : Int)
    (rest : List UInt8) : flushAll U ⟨ptr, r.header ++ rest⟩ = .done r.command := by
  cases r with
  | now =>
    have hspan := span_isToken ptr (t := []) (by simp) (stops_cr (LF :: rest))
    simp only [List.nil_append, List.length_nil, Int.ofNat_zero, Int.add_zero] at hspan
    simp only [flushAll, FlushRequest.header]
    rw [show CRLF ++ rest = CR :: LF :: rest from rfl, hspan]
    have hconsumed : ptr + 2 - ptr = 2 := by omega
    simp [skipCRLF, failIf, FlushRequest.command, hconsumed]
  | nowNoreply =>
    have hspan := span_isToken ptr (by decide : IsToken NOREPLY).bytes (stops_cr (LF :: rest))
    have hn : NOREPLY.head? = some LOWER_N := by decide
    have hne : NOREPLY ≠ [] := by decide
    have hlen : (NOREPLY.length : Int) = 7 := by decide
    simp only [flushAll, FlushRequest.header, List.append_assoc]
    rw [show CRLF ++ rest = CR :: LF :: rest from rfl, hspan]
    have hcheck := checkNoreply_noreply ptr ⟨ptr + 7, CRLF ++ rest⟩ rest
    rw [show CRLF ++ rest = CR :: LF :: rest from rfl] at hcheck
    simp [flushArguments, hne, hn, hlen, hcheck, skipCRLF, failIf, FlushRequest.command]
    omega
  | delayed delay gap hdelay hrange =>
    have hspan := span_isToken ptr delay.isToken.bytes (lineEndBytes_stops gap rest)
    obtain ⟨next, harguments, hrest, hnext⟩ := flushArguments_delayed gap hdelay hrange ptr
      (ptr + delay.token.length) ⟨ptr, delay.token ++ (lineEndBytes gap ++ rest)⟩ rest
    obtain ⟨nextPtr, nextRest⟩ := next
    simp only at hrest hnext
    subst hrest
    have hlen : 2 ≤ (lineEndBytes gap).length := by
      cases gap with
      | none => simp [lineEndBytes, CRLF]
      | some extra =>
        simp [lineEndBytes, CRLF]
        omega
    have htoken := List.length_pos_of_ne_nil delay.isToken.nonempty
    have hmoved : nextPtr ≠ ptr := by omega
    simp only [flushAll, FlushRequest.header, List.append_assoc, hspan, Verdict.done_bind,
      harguments, skipCRLF_bytes, ne_eq, delay.isToken.nonempty, not_false_eq_true, if_true,
      hmoved, if_false]
    simp only [Verdict.pure_eq_done, Verdict.rethrow_done, Verdict.done.injEq,
      FlushRequest.command, MemcachedCommand.mk.injEq, true_and, and_true]
    omega

/-- A word that starts with n and is not the beginning of noreply is passed over. -/
theorem flushAll_word {U : CacheUtils} {word : List UInt8} (hword : IsToken word)
    (hn : word.head? = some LOWER_N) (ptr : Int) {rest : List UInt8}
    (hlong : 9 ≤ (word ++ (CRLF ++ rest)).length)
    (hnoreply : (word ++ (CRLF ++ rest)).take 7 ≠ NOREPLY) :
    flushAll U ⟨ptr, word ++ (CRLF ++ rest)⟩ =
      .done { cls := .FLUSH_ALL, consumed := word.length + 2 } := by
  have hspan := span_isToken ptr hword.bytes (stops_cr (LF :: rest))
  rw [show CR :: LF :: rest = CRLF ++ rest from rfl] at hspan
  have hcheck : checkNoreply ⟨ptr, word ++ (CRLF ++ rest)⟩ ⟨ptr + word.length, CRLF ++ rest⟩ =
      .done (false, ⟨ptr + word.length, CRLF ++ rest⟩) :=
    checkNoreply_eq_done_iff.mpr (.inr ⟨rfl, rfl, fun _ => ⟨hlong, hnoreply⟩⟩)
  have hpos := List.length_pos_of_ne_nil hword.nonempty
  have hmoved : ptr + word.length ≠ ptr := by omega
  simp only [flushAll, hspan, Verdict.done_bind, ne_eq, hword.nonempty, not_false_eq_true,
    if_true, flushArguments, hn, not_true_eq_false, if_false, hcheck, Verdict.pure_eq_done,
    skipCRLF_bytes, hmoved, Verdict.rethrow_done, Verdict.done.injEq, MemcachedCommand.mk.injEq,
    true_and, and_true]
  omega

theorem skipCRLF_space (msg : String) (ptr : Int) (s : List UInt8) {next : Input} :
    skipCRLF msg ⟨ptr, SP :: s⟩ ≠ .done next := by
  intro h
  have hrest := (skipCRLF_eq_done_iff.mp h).1
  simp [CRLF, SP, CR] at hrest

theorem flushArguments_delay_sound {U : CacheUtils} {token : Token} {args c c' next : Input}
    {delay : Int} {noreply : Bool} (msg : String) (hhead : token.items.head? ≠ some LOWER_N)
    (hstop : Stops c.rest) (h : flushArguments U token args c = .done (delay, noreply, c'))
    (hcrlf : skipCRLF msg c' = .done next) :
    ∃ (v : Int) (gap : Option Nat), number U token = .done v ∧ 0 ≤ FLUSH_ALL.toInt v ∧
      c.rest = lineEndBytes gap ++ next.rest := by
  simp only [flushArguments, ne_eq, hhead, not_false_eq_true, if_true, Verdict.bind_eq_done_iff,
    failIf_eq_done_iff, exists_const] at h
  obtain ⟨v, hv, hnonneg, hspaces⟩ := h
  have hback := (skipCRLF_eq_done_iff.mp hcrlf).1
  obtain ⟨ptr, rest⟩ := c
  simp only at hstop
  cases hgap : (span isSpace (⟨ptr, rest⟩ : Input) : Verdict Thrown (Token × Input)) with
  | incomplete =>
    simp only [hgap, Verdict.pure_eq_done, Verdict.done.injEq, Prod.mk.injEq] at hspaces
    obtain ⟨-, -, rfl⟩ := hspaces
    have hall := span_eq_incomplete_iff.mp hgap
    obtain ⟨stop, tail, rfl, -⟩ := hstop
    have hsp := isSpace_eq_true_iff.mp (hall stop (by simp))
    subst hsp
    exact absurd hcrlf (skipCRLF_space msg ptr tail)
  | failed e => exact absurd hgap span_ne_failed
  | done read =>
    obtain ⟨gap, word⟩ := read
    obtain ⟨n, b, tail, rfl, rfl, hb, hrest⟩ := span_space_eq_done_iff.mp hgap
    simp only [hgap] at hspaces hrest
    cases n with
    | zero =>
      simp only [List.replicate_zero, if_true, Verdict.pure_eq_done, Verdict.done.injEq,
        Prod.mk.injEq] at hspaces
      obtain ⟨-, -, rfl⟩ := hspaces
      exact ⟨v, none, hv, by omega, hback⟩
    | succ extra =>
      have hne : List.replicate (extra + 1) SP ≠ [] := by simp
      simp only [hne, if_false, Verdict.bind_eq_done_iff, Prod.exists, Verdict.pure_eq_done,
        Verdict.done.injEq, Prod.mk.injEq] at hspaces
      obtain ⟨nr, after, hcheck, -, -, rfl⟩ := hspaces
      rcases checkNoreply_eq_done_iff.mp hcheck with ⟨-, hword, -, -⟩ | ⟨-, rfl, -⟩
      · refine ⟨v, some extra, hv, by omega, ?_⟩
        simp only at hword ⊢
        rw [hrest, hword, hback]
        simp [lineEndBytes]
      · rw [hrest, List.replicate_succ] at hcrlf
        exact absurd hcrlf (skipCRLF_space msg ptr _)

/-- Every flush_all that is accepted stands for a flush request, or for a line with another word
that starts with n. -/
theorem flushAll_sound {U : CacheUtils} {args : Input} {cmd : MemcachedCommand}
    (h : flushAll U args = .done cmd) :
    (∃ (r : FlushRequest U) (rest : List UInt8), args.rest = r.header ++ rest ∧
        cmd = r.command) ∨
      ∃ word rest, IsToken word ∧ word.head? = some LOWER_N ∧ args.rest = word ++ (CRLF ++ rest) ∧
        9 ≤ args.rest.length ∧ args.rest.take 7 ≠ NOREPLY ∧
        cmd = { cls := .FLUSH_ALL, consumed := word.length + 2 } := by
  have haccept := h
  have hrequest (r : FlushRequest U) (rest : List UInt8) (hrest : args.rest = r.header ++ rest) :
      cmd = r.command := by
    have heq := r.flushAll_eq args.ptr rest
    rw [← hrest] at heq
    exact Verdict.done.inj (haccept.symm.trans heq)
  simp only [flushAll, Verdict.rethrow_eq_done_iff, Verdict.bind_eq_done_iff, Prod.exists] at h
  obtain ⟨token, c, hspan, delay, noreply, c', hflush, next, hcrlf, -⟩ := h
  obtain ⟨hrest, hptr, hc, hbytes, hstop⟩ := span_token_eq_done_iff.mp hspan
  have hback := (skipCRLF_eq_done_iff.mp hcrlf).1
  by_cases hempty : token.items = []
  · simp only [hempty, ne_eq, not_true_eq_false, if_false, Verdict.done.injEq, Prod.mk.injEq]
      at hflush
    obtain ⟨-, -, rfl⟩ := hflush
    have hargs : args.rest = FlushRequest.now.header (U := U) ++ next.rest := by
      rw [hrest, hempty, hback]
      rfl
    exact .inl ⟨.now, next.rest, hargs, hrequest _ _ hargs⟩
  simp only [hempty, ne_eq, not_false_eq_true, if_true] at hflush
  by_cases hhead : token.items.head? = some LOWER_N
  · simp only [flushArguments, hhead, ne_eq, not_true_eq_false, if_false,
      Verdict.bind_eq_done_iff, Prod.exists, Verdict.pure_eq_done, Verdict.done.injEq,
      Prod.mk.injEq] at hflush
    obtain ⟨nr, after, hcheck, -, -, rfl⟩ := hflush
    rcases checkNoreply_eq_done_iff.mp hcheck with ⟨-, hword, -, -⟩ | ⟨-, rfl, hother⟩
    · have hargs : args.rest = FlushRequest.nowNoreply.header (U := U) ++ next.rest := by
        rw [hword, hback]
        simp [FlushRequest.header]
      exact .inl ⟨.nowNoreply, next.rest, hargs, hrequest _ _ hargs⟩
    · have htoken : IsToken token.items := ⟨hempty, hbytes⟩
      have hargs : args.rest = token.items ++ (CRLF ++ next.rest) := by rw [hrest, hback]
      have hn : args.rest.head? = some LOWER_N := by
        obtain ⟨b, bs, hb, -⟩ := htoken.head
        rw [hrest, hb]
        simpa [hb] using hhead
      obtain ⟨hlong, hne⟩ := hother hn
      refine .inr ⟨token.items, next.rest, htoken, hhead, hargs, hlong, hne, ?_⟩
      rw [hargs] at hlong hne
      have heq := flushAll_word (U := U) htoken hhead args.ptr hlong hne
      rw [← hargs] at heq
      exact Verdict.done.inj (haccept.symm.trans heq)
  · obtain ⟨v, gap, hv, hnonneg, hc⟩ := flushArguments_delay_sound _ hhead hstop hflush hcrlf
    let n : Number U := ⟨token.items, v, ⟨hempty, hbytes⟩, number_eq_done_iff.mp hv⟩
    have hargs : args.rest = (FlushRequest.delayed n gap hhead hnonneg).header ++ next.rest := by
      rw [hrest, hc]
      simp [FlushRequest.header, n]
    exact .inl ⟨_, next.rest, hargs, hrequest _ _ hargs⟩

end Memcarrot.Wire
