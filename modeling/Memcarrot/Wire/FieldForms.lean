import Memcarrot.Segments.Maximal
import Memcarrot.Wire.Fields

open Incremental

namespace Memcarrot.Wire

@[simp] theorem incompleteIf_eq_done_iff {condition : Prop} [Decidable condition] {u : Unit} :
    incompleteIf condition = .done u ↔ ¬ condition := by
  unfold incompleteIf
  split <;> simp_all

@[simp] theorem incompleteIf_eq_incomplete_iff {condition : Prop} [Decidable condition] :
    incompleteIf condition = .incomplete ↔ condition := by
  unfold incompleteIf
  split <;> simp_all

@[simp] theorem incompleteIf_ne_failed {condition : Prop} [Decidable condition] {e : Thrown} :
    incompleteIf condition ≠ .failed e := by
  unfold incompleteIf
  split <;> simp

@[simp] theorem failIf_eq_done_iff {condition : Prop} [Decidable condition] {msg : String}
    {u : Unit} : failIf condition msg = .done u ↔ ¬ condition := by
  unfold failIf
  split <;> simp_all

@[simp] theorem failIf_ne_incomplete {condition : Prop} [Decidable condition] {msg : String} :
    failIf condition msg ≠ .incomplete := by
  unfold failIf
  split <;> simp

@[simp] theorem failIf_eq_failed_iff {condition : Prop} [Decidable condition] {msg : String}
    {e : Thrown} : failIf condition msg = .failed e ↔ condition ∧ e = .illegalFormat msg := by
  unfold failIf
  split <;> simp_all [eq_comm]

theorem span_token_eq_done_iff {c : Input} {token : Token} {next : Input} :
    (span isTokenByte c : Verdict Thrown _) = .done (token, next) ↔
      c.rest = token.items ++ next.rest ∧ token.ptr = c.ptr ∧
        next.ptr = c.ptr + token.items.length ∧ (∀ b ∈ token.items, isTokenByte b = true) ∧
        Stops next.rest :=
  span_eq_done_iff

theorem Stops.head {s : List UInt8} (h : Stops s) : ∀ b ∈ s.head?, isTokenByte b = false := by
  obtain ⟨stop, rest, rfl, hstop⟩ := h
  simpa using hstop

/-- Where a token ends is determined. -/
theorem IsToken.append_inj {t t' s s' : List UInt8} (ht : IsToken t) (ht' : IsToken t')
    (hs : Stops s) (hs' : Stops s') (h : t ++ s = t' ++ s') : t = t' ∧ s = s' :=
  Segments.append_inj_of_stop isTokenByte ht.bytes hs.head ht'.bytes hs'.head h

theorem IsToken.head_append {t s bs : List UInt8} {b : UInt8} (ht : IsToken t)
    (h : t ++ s = b :: bs) : t.head? = some b ∧ b ≠ SP ∧ b ≠ CR := by
  obtain ⟨x, xs, rfl, hsp, hcr⟩ := ht.head
  obtain ⟨rfl, -⟩ := List.cons.inj h
  exact ⟨rfl, hsp, hcr⟩

theorem spaces_append_inj {n n' : Nat} {b b' : UInt8} {s s' : List UInt8} (hb : b ≠ SP)
    (hb' : b' ≠ SP) (h : List.replicate n SP ++ b :: s = List.replicate n' SP ++ b' :: s') :
    n = n' ∧ b = b' ∧ s = s' := by
  have hspaces : ∀ k, ∀ x ∈ List.replicate k SP, isSpace x = true := fun k x hx =>
    isSpace_eq_true_iff.mpr (List.eq_of_mem_replicate hx)
  have hstop : ∀ {x : UInt8} {xs : List UInt8}, x ≠ SP →
      ∀ y ∈ (x :: xs).head?, isSpace y = false := by
    intro x xs hx y hy
    cases hy
    exact isSpace_eq_false_iff.mpr hx
  obtain ⟨hgap, hrest⟩ := Segments.append_inj_of_stop isSpace (hspaces n) (hstop hb) (hspaces n')
    (hstop hb') h
  obtain ⟨rfl, rfl⟩ := List.cons.inj hrest
  exact ⟨by simpa using congrArg List.length hgap, rfl, rfl⟩

/-- What is skipped before a token is a number of spaces. -/
theorem span_space_eq_done_iff {c : Input} {gap : Token} {next : Input} :
    (span isSpace c : Verdict Thrown _) = .done (gap, next) ↔
      ∃ n b rest, gap = ⟨c.ptr, List.replicate n SP⟩ ∧ next = ⟨c.ptr + n, b :: rest⟩ ∧
        b ≠ SP ∧ c.rest = List.replicate n SP ++ b :: rest := by
  rw [span_eq_done_iff]
  constructor
  · rintro ⟨hrest, hgap, hnext, hkeep, b, rest, hb, hstop⟩
    have hrep : gap.items = List.replicate gap.items.length SP :=
      List.eq_replicate_of_mem fun x hx => isSpace_eq_true_iff.mp (hkeep x hx)
    refine ⟨gap.items.length, b, rest, ?_, ?_, isSpace_eq_false_iff.mp hstop, ?_⟩
    · obtain ⟨ptr, items⟩ := gap
      simp only at hgap hrep
      subst hgap
      rw [← hrep]
    · obtain ⟨ptr, items⟩ := next
      simp only at hnext hb
      rw [hnext, hb]
    · rw [← hrep, hrest, hb]
  · rintro ⟨n, b, rest, rfl, rfl, hb, hrest⟩
    refine ⟨hrest, rfl, by simp, fun x hx => ?_, b, rest, rfl, isSpace_eq_false_iff.mpr hb⟩
    exact isSpace_eq_true_iff.mpr (List.eq_of_mem_replicate hx)

theorem span_no_space {c : Input} {b : UInt8} {rest : List UInt8} (hb : b ≠ SP)
    (hrest : c.rest = b :: rest) : (span isSpace c : Verdict Thrown _) = .done (⟨c.ptr, []⟩, c) := by
  obtain ⟨ptr, items⟩ := c
  simp only at hrest
  rw [span_space_eq_done_iff]
  exact ⟨0, b, rest, rfl, by simp [hrest], hb, hrest⟩

theorem span_one_space {c : Input} {b : UInt8} {rest : List UInt8} (hb : b ≠ SP)
    (hrest : c.rest = SP :: b :: rest) :
    (span isSpace c : Verdict Thrown _) = .done (⟨c.ptr, [SP]⟩, ⟨c.ptr + 1, b :: rest⟩) := by
  rw [span_space_eq_done_iff]
  exact ⟨1, b, rest, rfl, rfl, hb, hrest⟩

theorem keyField_eq_done_iff {c : Input} {key : Token} {next : Input} :
    keyField c = .done (key, next) ↔
      c.rest = key.items ++ next.rest ∧ key.ptr = c.ptr ∧
        next.ptr = c.ptr + key.items.length ∧ IsToken key.items ∧ Stops next.rest := by
  simp only [keyField, Verdict.bind_eq_done_iff, Verdict.pure_eq_done, Verdict.done.injEq,
    incompleteIf_eq_done_iff, Prod.exists, Prod.mk.injEq, exists_const]
  constructor
  · rintro ⟨key, next, hspan, hne, rfl, rfl⟩
    obtain ⟨hrest, hkey, hnext, hbytes, hstop⟩ := span_token_eq_done_iff.mp hspan
    exact ⟨hrest, hkey, hnext, ⟨hne, hbytes⟩, hstop⟩
  · rintro ⟨hrest, hkey, hnext, htoken, hstop⟩
    exact ⟨key, next, span_token_eq_done_iff.mpr ⟨hrest, hkey, hnext, htoken.bytes, hstop⟩,
      htoken.nonempty, rfl, rfl⟩

theorem nextField_eq_done_iff {msg : String} {c : Input} {token : Token} {next : Input} :
    nextField msg c = .done (token, next) ↔
      c.rest = SP :: (token.items ++ next.rest) ∧ token.ptr = c.ptr + 1 ∧
        next.ptr = token.ptr + token.items.length ∧ IsToken token.items ∧ Stops next.rest := by
  simp only [nextField, Verdict.bind_eq_done_iff, Verdict.pure_eq_done, Verdict.done.injEq,
    incompleteIf_eq_done_iff, failIf_eq_done_iff, Prod.exists, Prod.mk.injEq, exists_const]
  constructor
  · rintro ⟨gap, afterGap, hgap, -, hone, token, next, hspan, hne, rfl, rfl⟩
    obtain ⟨n, b, rest, rfl, rfl, hb, hrest⟩ := span_space_eq_done_iff.mp hgap
    obtain ⟨htoken, hptr, hnext, hbytes, hstop⟩ := span_token_eq_done_iff.mp hspan
    have hn : n = 1 := by simpa using hone
    subst hn
    simp only [Int.natCast_one] at htoken hptr hnext
    refine ⟨?_, hptr, by rw [hnext, hptr], ⟨hne, hbytes⟩, hstop⟩
    rw [hrest, htoken]
    rfl
  · rintro ⟨hrest, hptr, hnext, htoken, hstop⟩
    obtain ⟨b, bs, htoken', hsp, -⟩ := htoken.head
    refine ⟨⟨c.ptr, [SP]⟩, ⟨c.ptr + 1, token.items ++ next.rest⟩, ?_, by simp, by simp, token,
      next, span_token_eq_done_iff.mpr ⟨rfl, hptr, by simpa [hptr] using hnext, htoken.bytes, hstop⟩,
      htoken.nonempty, rfl, rfl⟩
    have hspace : c.rest = SP :: b :: (bs ++ next.rest) := by simp [hrest, htoken']
    simpa [htoken'] using span_one_space hsp hspace

/-- What closes a command line: the line end alone, or one and more spaces before noreply. -/
def lineEndBytes : Option Nat → List UInt8
  | none => CRLF
  | some extra => List.replicate (extra + 1) SP ++ (NOREPLY ++ CRLF)

theorem skipCRLF_eq_done_iff {msg : String} {c next : Input} :
    skipCRLF msg c = .done next ↔ c.rest = CRLF ++ next.rest ∧ next.ptr = c.ptr + 2 := by
  obtain ⟨ptr, rest⟩ := c
  obtain ⟨nextPtr, nextRest⟩ := next
  unfold skipCRLF
  constructor
  · intro h
    split at h
    · next first second tail hrest =>
      simp only [Verdict.bind_eq_done_iff, failIf_eq_done_iff, not_not, Verdict.pure_eq_done,
        Verdict.done.injEq, exists_const, Cursor.mk.injEq] at h hrest
      obtain ⟨rfl, rfl, rfl, rfl⟩ := h
      exact ⟨hrest, rfl⟩
    · cases h
  · rintro ⟨hrest, hptr⟩
    simp only at hrest hptr
    subst hrest hptr
    simp [CRLF, failIf]

theorem checkNoreply_eq_done_iff {word back : Input} {noreply : Bool} {next : Input} :
    checkNoreply word back = .done (noreply, next) ↔
      (noreply = true ∧ word.rest = NOREPLY ++ next.rest ∧ next.ptr = word.ptr + 7 ∧
        2 ≤ next.rest.length) ∨
      (noreply = false ∧ next = back ∧
        (word.rest.head? = some LOWER_N → 9 ≤ word.rest.length ∧ word.rest.take 7 ≠ NOREPLY)) := by
  obtain ⟨nextPtr, nextRest⟩ := next
  have hlen : NOREPLY.length = 7 := by decide
  unfold checkNoreply
  constructor
  · intro h
    split at h
    · next hn =>
      split at h
      · next hlong =>
        split at h
        · next hword =>
          simp only [Verdict.done.injEq, Prod.mk.injEq, Cursor.mk.injEq] at h
          obtain ⟨rfl, rfl, rfl⟩ := h
          refine .inl ⟨rfl, ?_, rfl, by simp only [List.length_drop]; omega⟩
          rw [← hword, List.take_append_drop]
        · next hword =>
          simp only [Verdict.done.injEq, Prod.mk.injEq] at h
          obtain ⟨rfl, rfl⟩ := h
          exact .inr ⟨rfl, rfl, fun _ => ⟨hlong, hword⟩⟩
      · cases h
    · next hn =>
      simp only [Verdict.done.injEq, Prod.mk.injEq] at h
      obtain ⟨rfl, rfl⟩ := h
      exact .inr ⟨rfl, rfl, fun h => absurd h hn⟩
  · rintro (⟨rfl, hrest, hptr, hlong⟩ | ⟨rfl, rfl, hword⟩)
    · simp only at hrest hptr hlong
      have hhead : word.rest.head? = some LOWER_N := by rw [hrest]; rfl
      have hsize : 9 ≤ word.rest.length := by
        rw [hrest, List.length_append]
        omega
      have htake : word.rest.take 7 = NOREPLY := by rw [hrest, ← hlen, List.take_left]
      have hdrop : word.rest.drop 7 = nextRest := by rw [hrest, ← hlen, List.drop_left]
      simp [hhead, hsize, htake, hdrop, hptr]
    · by_cases hn : word.rest.head? = some LOWER_N
      · obtain ⟨hlong, hne⟩ := hword hn
        simp [hn, hlong, hne]
      · simp [hn]

theorem checkNoreply_ne_failed {word back : Input} {e : Thrown} :
    checkNoreply word back ≠ .failed e := by
  unfold checkNoreply
  split_ifs <;> simp

/-- Behind a token, a line is closed exactly by its end, with or without noreply in front. -/
theorem lineEnd_eq_done_iff {msg : String} {c : Input} {noreply : Bool} {next : Input}
    (hstop : Stops c.rest) :
    lineEnd msg c = .done (noreply, next) ↔
      ∃ gap, noreply = gap.isSome ∧ c.rest = lineEndBytes gap ++ next.rest ∧
        next.ptr = c.ptr + (lineEndBytes gap).length := by
  simp only [lineEnd, noreplyField, Verdict.bind_eq_done_iff, Verdict.pure_eq_done,
    Verdict.done.injEq, Prod.exists, Prod.mk.injEq]
  constructor
  · rintro ⟨nr, back, ⟨gap, word, hgap, hcheck⟩, next, hcrlf, rfl, rfl⟩
    obtain ⟨n, b, rest, rfl, rfl, hb, hrest⟩ := span_space_eq_done_iff.mp hgap
    obtain ⟨hback, hnext⟩ := skipCRLF_eq_done_iff.mp hcrlf
    rcases checkNoreply_eq_done_iff.mp hcheck with ⟨rfl, hword, hptr, -⟩ | ⟨rfl, rfl, -⟩
    · simp only at hword hptr
      cases n with
      | zero =>
        -- the line would go on with noreply directly behind the token
        simp only [List.replicate_zero, List.nil_append] at hrest
        have hdelim := hstop.head LOWER_N (by rw [hrest, hword]; rfl)
        cases hdelim
      | succ extra =>
        refine ⟨some extra, rfl, ?_, ?_⟩
        · rw [hrest, hword, hback]
          simp [lineEndBytes]
        · rw [hnext, hptr]
          simp [lineEndBytes, NOREPLY, CRLF, ascii]
          omega
    · exact ⟨none, rfl, hback, by simpa [lineEndBytes, CRLF] using hnext⟩
  · rintro ⟨gap, rfl, hrest, hnext⟩
    cases gap with
    | none =>
      refine ⟨false, c, ⟨⟨c.ptr, []⟩, c, ?_, ?_⟩, next, ?_, rfl, rfl⟩
      · exact span_no_space (by decide) hrest
      · rw [checkNoreply_eq_done_iff]
        refine .inr ⟨rfl, rfl, fun h => ?_⟩
        simp [hrest, lineEndBytes, CRLF, CR, LOWER_N] at h
      · exact skipCRLF_eq_done_iff.mpr ⟨hrest, hnext⟩
    | some extra =>
      have hword : NOREPLY ++ (CRLF ++ next.rest) =
          LOWER_N :: (ascii "oreply" ++ (CRLF ++ next.rest)) := rfl
      refine ⟨true, ⟨c.ptr + (extra + 1 : Nat) + 7, CRLF ++ next.rest⟩,
        ⟨⟨c.ptr, List.replicate (extra + 1) SP⟩,
          ⟨c.ptr + (extra + 1 : Nat), NOREPLY ++ (CRLF ++ next.rest)⟩, ?_, ?_⟩, next, ?_, rfl, rfl⟩
      · rw [span_space_eq_done_iff, hword]
        refine ⟨extra + 1, LOWER_N, _, rfl, rfl, by decide, ?_⟩
        rw [hrest, ← hword]
        simp [lineEndBytes]
      · exact checkNoreply_eq_done_iff.mpr (.inl ⟨rfl, rfl, rfl, by simp [CRLF]⟩)
      · refine skipCRLF_eq_done_iff.mpr ⟨rfl, ?_⟩
        rw [hnext]
        simp [lineEndBytes, NOREPLY, CRLF, ascii]
        omega

end Memcarrot.Wire
