import Mathlib.Logic.Relation

namespace Transition

variable {State Event : Type*}

/-- The states that are reached from one another by steps whose events are allowed in the state
before them. -/
def Runs (step : State → Event → Option State) (allowed : State → Event → Prop) :
    State → State → Prop :=
  Relation.ReflTransGen fun st st' => ∃ e, allowed st e ∧ step st e = some st'

/-- The state after a list of events, if each of them is possible. -/
def follow (step : State → Event → Option State) : State → List Event → Option State
  | st, [] => some st
  | st, e :: events => (step st e).bind fun st => follow step st events

section Rules

variable {step : State → Event → Option State} {allowed : State → Event → Prop} {st st' : State}

/-- What a run starts with and every allowed step preserves holds in every state that is reached. -/
theorem Runs.invariant {Inv : State → Prop} (hrun : Runs step allowed st st') (hstart : Inv st)
    (hstep : ∀ {s e s'}, Inv s → allowed s e → step s e = some s' → Inv s') : Inv st' := by
  induction hrun with
  | refl => exact hstart
  | tail _ hlast ih =>
    obtain ⟨e, hallowed, hnext⟩ := hlast
    exact hstep ih hallowed hnext

/-- A run stays one where more is allowed. -/
theorem Runs.mono {more : State → Event → Prop} (h : ∀ s e, allowed s e → more s e)
    (hrun : Runs step allowed st st') : Runs step more st st' :=
  Relation.ReflTransGen.mono (fun s _ ⟨e, hallowed, hstep⟩ => ⟨e, h s e hallowed, hstep⟩) _ _ hrun

theorem runs_of_follow {events : List Event} (h : follow step st events = some st')
    (hallowed : ∀ e ∈ events, ∀ s, allowed s e) : Runs step allowed st st' := by
  induction events generalizing st with
  | nil =>
    simp only [follow, Option.some.injEq] at h
    subst h
    exact .refl
  | cons e events ih =>
    simp only [follow, Option.bind_eq_some_iff] at h
    obtain ⟨next, hnext, hrest⟩ := h
    have hfirst : Runs step allowed st next :=
      .single ⟨e, hallowed e List.mem_cons_self st, hnext⟩
    exact hfirst.trans (ih hrest fun e he => hallowed e (List.mem_cons_of_mem _ he))

theorem runs_of_follow_where {ok : State → Event → Bool} {events : List Event}
    (hok : ∀ s e, ok s e = true → allowed s e)
    (h : follow (fun s e => if ok s e then step s e else none) st events = some st') :
    Runs step allowed st st' := by
  induction events generalizing st with
  | nil =>
    simp only [follow, Option.some.injEq] at h
    subst h
    exact .refl
  | cons e events ih =>
    simp only [follow, Option.bind_eq_some_iff, Option.ite_none_right_eq_some] at h
    obtain ⟨next, ⟨hfirst, hnext⟩, hrest⟩ := h
    have hone : Runs step allowed st next := .single ⟨e, hok st e hfirst, hnext⟩
    exact hone.trans (ih hrest)

end Rules

end Transition
