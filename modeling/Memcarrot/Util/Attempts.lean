import Mathlib.Algebra.GroupWithZero.Nat

namespace Memcarrot

/-- What an attempt to write to a channel does: it takes as many bytes, or all that are left, or
throws an IOException. -/
inductive Attempt where
  | accepts (count : Nat)
  | throws
  deriving DecidableEq, Repr

namespace Attempt

/-- The number of bytes that an attempt takes, if they are left. -/
def size : Attempt → Nat
  | accepts count => count
  | throws => 0

/-- An attempt throws before so many bytes are taken. -/
def Break (length : Nat) (attempts : List Attempt) : Prop :=
  ∃ before after, attempts = before ++ .throws :: after ∧ (before.map size).sum < length

/-- The loop that writes bytes until none remain: whether it ends so, the bytes that are taken, and
the attempts that are left. Behind these attempts, everything is taken. -/
def writeAll (bytes : List UInt8) : List Attempt → Bool × List UInt8 × List Attempt
  | [] => (true, bytes, [])
  | attempt :: attempts =>
    if bytes = [] then (true, [], attempt :: attempts)
    else
      match attempt with
      | .throws => (false, [], attempts)
      | .accepts count =>
        let (done, taken, left) := writeAll (bytes.drop count) attempts
        (done, bytes.take count ++ taken, left)

variable {length : Nat} {attempt : Attempt} {attempts : List Attempt} {bytes : List UInt8}

theorem not_break_nil : ¬ Break length [] := by
  rintro ⟨before, after, hsplit, -⟩
  simp at hsplit

theorem break_throws : Break length (.throws :: attempts) ↔ 0 < length := by
  constructor
  · rintro ⟨before, after, -, hless⟩
    omega
  · exact fun hpos => ⟨[], attempts, rfl, hpos⟩

theorem break_accepts {count : Nat} :
    Break length (.accepts count :: attempts) ↔ Break (length - count) attempts := by
  constructor
  · rintro ⟨before, after, hsplit, hless⟩
    cases before with
    | nil => cases (List.cons.inj hsplit).1
    | cons first before =>
      obtain ⟨rfl, hrest⟩ := List.cons.inj hsplit
      rw [List.map_cons, List.sum_cons, size] at hless
      exact ⟨before, after, hrest, by omega⟩
  · rintro ⟨before, after, hsplit, hless⟩
    refine ⟨.accepts count :: before, after, by rw [hsplit, List.cons_append], ?_⟩
    rw [List.map_cons, List.sum_cons, size]
    omega

/-- The loop is left by the IOException of an attempt that comes before all bytes are taken, or all
of them are written. -/
theorem writeAll_cases (bytes : List UInt8) (attempts : List Attempt) :
    (Break bytes.length attempts ∧
        ∃ taken left, writeAll bytes attempts = (false, taken, left)) ∨
      (¬ Break bytes.length attempts ∧
        ∃ left, (∀ attempt ∈ left, attempt ∈ attempts) ∧
          writeAll bytes attempts = (true, bytes, left)) := by
  induction attempts generalizing bytes with
  | nil => exact .inr ⟨not_break_nil, [], by simp, rfl⟩
  | cons attempt attempts ih =>
    by_cases hbytes : bytes = []
    · subst hbytes
      refine .inr ⟨?_, attempt :: attempts, by simp, ?_⟩
      · rintro ⟨before, after, -, hless⟩
        simp at hless
      · cases attempt <;> rfl
    · cases attempt with
      | throws =>
        refine .inl ⟨break_throws.mpr (List.length_pos_iff.mpr hbytes), [], attempts, ?_⟩
        rw [writeAll, if_neg hbytes]
      | accepts count =>
        rw [writeAll, if_neg hbytes, break_accepts, ← List.length_drop]
        rcases ih (bytes.drop count) with ⟨hbreak, taken, left, hrest⟩ |
          ⟨hbreak, left, hleft, hrest⟩
        · exact .inl ⟨hbreak, bytes.take count ++ taken, left, by rw [hrest]⟩
        · refine .inr ⟨hbreak, left, fun a ha => List.mem_cons_of_mem _ (hleft a ha), ?_⟩
          rw [hrest]
          simp

end Attempt

end Memcarrot
