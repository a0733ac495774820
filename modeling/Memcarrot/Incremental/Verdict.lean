import Mathlib.Logic.Basic

namespace Incremental

/-- What a parser can say about the part of a stream it has received so far. -/
inductive Verdict (ε α : Type) where
  | incomplete
  | failed (error : ε)
  | done (value : α)
  deriving DecidableEq, Repr

namespace Verdict

def bind {ε α β : Type} : Verdict ε α → (α → Verdict ε β) → Verdict ε β
  | .incomplete, _ => .incomplete
  | .failed e, _ => .failed e
  | .done a, f => f a

instance {ε : Type} : Monad (Verdict ε) where
  pure := .done
  bind := Verdict.bind

@[simp] theorem pure_eq_done {ε α : Type} (a : α) : (pure a : Verdict ε α) = .done a := rfl

@[simp] theorem incomplete_bind {ε α β : Type} (f : α → Verdict ε β) :
    ((.incomplete : Verdict ε α) >>= f) = .incomplete := rfl

@[simp] theorem failed_bind {ε α β : Type} (e : ε) (f : α → Verdict ε β) :
    ((.failed e : Verdict ε α) >>= f) = .failed e := rfl

@[simp] theorem done_bind {ε α β : Type} (a : α) (f : α → Verdict ε β) :
    ((.done a : Verdict ε α) >>= f) = f a := rfl

theorem bind_assoc {ε α β γ : Type} (v : Verdict ε α) (f : α → Verdict ε β)
    (g : β → Verdict ε γ) : v >>= f >>= g = v >>= fun a => f a >>= g := by
  cases v <;> rfl

theorem bind_eq_done_iff {ε α β : Type} {v : Verdict ε α} {f : α → Verdict ε β} {b : β} :
    (v >>= f) = .done b ↔ ∃ a, v = .done a ∧ f a = .done b := by
  cases v <;> simp

theorem bind_eq_failed_iff {ε α β : Type} {v : Verdict ε α} {f : α → Verdict ε β} {e : ε} :
    (v >>= f) = .failed e ↔ v = .failed e ∨ ∃ a, v = .done a ∧ f a = .failed e := by
  cases v <;> simp

theorem bind_eq_incomplete_iff {ε α β : Type} {v : Verdict ε α} {f : α → Verdict ε β} :
    (v >>= f) = .incomplete ↔ v = .incomplete ∨ ∃ a, v = .done a ∧ f a = .incomplete := by
  cases v <;> simp

/-- Replaces the error of a failed verdict, as an exception handler that always rethrows does. -/
def rethrow {ε α : Type} (handler : ε → ε) : Verdict ε α → Verdict ε α
  | .incomplete => .incomplete
  | .failed e => .failed (handler e)
  | .done a => .done a

@[simp] theorem rethrow_incomplete {ε α : Type} (handler : ε → ε) :
    (.incomplete : Verdict ε α).rethrow handler = .incomplete := rfl

@[simp] theorem rethrow_failed {ε α : Type} (handler : ε → ε) (e : ε) :
    (.failed e : Verdict ε α).rethrow handler = .failed (handler e) := rfl

@[simp] theorem rethrow_done {ε α : Type} (handler : ε → ε) (a : α) :
    (.done a : Verdict ε α).rethrow handler = .done a := rfl

@[simp] theorem rethrow_eq_done_iff {ε α : Type} {handler : ε → ε} {v : Verdict ε α} {a : α} :
    v.rethrow handler = .done a ↔ v = .done a := by
  cases v <;> simp

@[simp] theorem rethrow_eq_incomplete_iff {ε α : Type} {handler : ε → ε} {v : Verdict ε α} :
    v.rethrow handler = .incomplete ↔ v = .incomplete := by
  cases v <;> simp

theorem rethrow_eq_failed_iff {ε α : Type} {handler : ε → ε} {v : Verdict ε α} {e : ε} :
    v.rethrow handler = .failed e ↔ ∃ e', v = .failed e' ∧ handler e' = e := by
  cases v <;> simp

/-- Two verdicts of the same kind, with the same error or related values. -/
inductive Rel {ε α β : Type} (R : α → β → Prop) : Verdict ε α → Verdict ε β → Prop
  | incomplete : Rel R .incomplete .incomplete
  | failed (e : ε) : Rel R (.failed e) (.failed e)
  | done {a : α} {b : β} (h : R a b) : Rel R (.done a) (.done b)

/-- The information order on verdicts: an incomplete verdict is below every other, and a
decision is only below the same decision, on values related by `R`. -/
inductive Below {ε α β : Type} (R : α → β → Prop) : Verdict ε α → Verdict ε β → Prop
  | incomplete (v : Verdict ε β) : Below R .incomplete v
  | failed (e : ε) : Below R (.failed e) (.failed e)
  | done {a : α} {b : β} (h : R a b) : Below R (.done a) (.done b)

theorem Rel.eq {ε α : Type} {v w : Verdict ε α} (h : Rel Eq v w) : v = w := by
  cases h with
  | incomplete => rfl
  | failed e => rfl
  | done h => rw [h]

theorem Rel.mono {ε α β : Type} {R S : α → β → Prop} {v : Verdict ε α} {w : Verdict ε β}
    (h : Rel R v w) (hRS : ∀ a b, R a b → S a b) : Rel S v w := by
  cases h with
  | incomplete => exact .incomplete
  | failed e => exact .failed e
  | done h => exact .done (hRS _ _ h)

theorem Rel.rethrow {ε α β : Type} {R : α → β → Prop} {v : Verdict ε α} {w : Verdict ε β}
    (h : Rel R v w) (handler : ε → ε) : Rel R (v.rethrow handler) (w.rethrow handler) := by
  cases h with
  | incomplete => exact .incomplete
  | failed e => exact .failed _
  | done h => exact .done h

theorem Below.bind {ε α β α' β' : Type} {R : α → β → Prop} {S : α' → β' → Prop}
    {v : Verdict ε α} {w : Verdict ε β} {f : α → Verdict ε α'} {g : β → Verdict ε β'}
    (h : Below R v w) (hfg : ∀ a b, R a b → v = .done a → Below S (f a) (g b)) :
    Below S (v >>= f) (w >>= g) := by
  cases h with
  | incomplete v => exact .incomplete _
  | failed e => exact .failed e
  | done h => exact hfg _ _ h rfl

theorem Below.rethrow {ε α β : Type} {R : α → β → Prop} {v : Verdict ε α} {w : Verdict ε β}
    (h : Below R v w) (handler : ε → ε) : Below R (v.rethrow handler) (w.rethrow handler) := by
  cases h with
  | incomplete v => exact .incomplete _
  | failed e => exact .failed _
  | done h => exact .done h

theorem Below.ite {ε α β : Type} {R : α → β → Prop} {p q : Prop} [Decidable p] [Decidable q]
    {v v' : Verdict ε α} {w w' : Verdict ε β} (hpq : p ↔ q) (hthen : p → Below R v w)
    (helse : ¬ p → Below R v' w') : Below R (if p then v else v') (if q then w else w') := by
  by_cases hp : p
  · rw [if_pos hp, if_pos (hpq.mp hp)]
    exact hthen hp
  · rw [if_neg hp, if_neg fun hq => hp (hpq.mpr hq)]
    exact helse hp

theorem Below.refl {ε α : Type} (v : Verdict ε α) : Below Eq v v := by
  cases v with
  | incomplete => exact .incomplete _
  | failed e => exact .failed e
  | done a => exact .done rfl

/-- Verdicts that are below each other are of the same kind. -/
theorem Below.rel {ε α β : Type} {R : α → β → Prop} {S : β → α → Prop} {v : Verdict ε α}
    {w : Verdict ε β} (h : Below R v w) (h' : Below S w v) : Rel R v w := by
  cases h with
  | incomplete w =>
    cases h' with
    | incomplete v => exact .incomplete
  | failed e => exact .failed e
  | done h => exact .done h

/-- A decision is kept. -/
theorem Below.rel_of_ne_incomplete {ε α β : Type} {R : α → β → Prop} {v : Verdict ε α}
    {w : Verdict ε β} (h : Below R v w) (hv : v ≠ .incomplete) : Rel R v w := by
  cases h with
  | incomplete w => exact absurd rfl hv
  | failed e => exact .failed e
  | done h => exact .done h

/-- The verdict fails only with errors that satisfy `P`. -/
def FailsOnly {ε α : Type} (P : ε → Prop) (v : Verdict ε α) : Prop := ∀ e, v = .failed e → P e

theorem FailsOnly.of_ne_failed {ε α : Type} {P : ε → Prop} {v : Verdict ε α}
    (h : ∀ e, v ≠ .failed e) : FailsOnly P v :=
  fun e he => absurd he (h e)

theorem FailsOnly.bind {ε α β : Type} {P : ε → Prop} {v : Verdict ε α} {f : α → Verdict ε β}
    (h : FailsOnly P v) (hf : ∀ a, v = .done a → FailsOnly P (f a)) : FailsOnly P (v >>= f) := by
  intro e he
  rcases bind_eq_failed_iff.mp he with he | ⟨a, ha, he⟩
  · exact h e he
  · exact hf a ha e he

theorem FailsOnly.rethrow {ε α : Type} {P Q : ε → Prop} {v : Verdict ε α} {handler : ε → ε}
    (h : FailsOnly P v) (hPQ : ∀ e, P e → Q (handler e)) : FailsOnly Q (v.rethrow handler) := by
  intro e he
  obtain ⟨e', he', rfl⟩ := rethrow_eq_failed_iff.mp he
  exact hPQ e' (h e' he')

end Verdict

end Incremental
