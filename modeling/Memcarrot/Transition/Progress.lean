import Mathlib.Logic.Function.Iterate

namespace Transition

open Function

variable {State : Type*}

/-- Going on from a state leads to one with a property. -/
def Reaches (next : State → State) (P : State → Prop) (s : State) : Prop := ∃ n, P (next^[n] s)

/-- Going on from a state never leads to one with a property. -/
def Avoids (next : State → State) (P : State → Prop) (s : State) : Prop := ∀ n, ¬ P (next^[n] s)

section Rules

variable {next : State → State} {P Q : State → Prop} {s : State}

theorem Reaches.now (h : P s) : Reaches next P s := ⟨0, h⟩

theorem Reaches.of_next (h : Reaches next P (next s)) : Reaches next P s := by
  obtain ⟨n, hn⟩ := h
  exact ⟨n + 1, hn⟩

theorem Avoids.now (h : Avoids next P s) : ¬ P s := h 0

theorem Avoids.later (h : Avoids next P s) : Avoids next P (next s) := fun n => h (n + 1)

theorem iterate_of_preserved (hP : ∀ s, P s → P (next s)) {m n : Nat} (hle : m ≤ n)
    (h : P (next^[m] s)) : P (next^[n] s) := by
  induction hle with
  | refl => exact h
  | step _ ih =>
    rw [iterate_succ_apply']
    exact hP _ ih

/-- Of two properties that exclude one another and are never lost, one at most is reached. -/
theorem Reaches.avoids (hP : ∀ s, P s → P (next s)) (hQ : ∀ s, Q s → Q (next s))
    (hexclude : ∀ s, P s → ¬ Q s) (h : Reaches next P s) : Avoids next Q s := by
  obtain ⟨m, hm⟩ := h
  intro n hn
  exact hexclude _ (iterate_of_preserved hP (Nat.le_max_left m n) hm)
    (iterate_of_preserved hQ (Nat.le_max_right m n) hn)

end Rules

end Transition
