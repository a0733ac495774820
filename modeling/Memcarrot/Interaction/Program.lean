import Mathlib.Data.List.Infix

namespace Interaction

/-- The calls that can be made on an object, and what each of them returns. -/
structure Interface where
  Call : Type
  Answer : Call → Type

/-- An object whose states are in `σ`. -/
abbrev Object (I : Interface) (σ : Type) := (c : I.Call) → σ → I.Answer c × σ

/-- Calls on an object that are made one after the other, and the result. -/
inductive Program (I : Interface) (α : Type) where
  | done (a : α)
  | call (c : I.Call) (next : I.Answer c → Program I α)

namespace Program

variable {I : Interface} {α β : Type}

def bind : Program I α → (α → Program I β) → Program I β
  | .done a, f => f a
  | .call c next, f => .call c fun answer => (next answer).bind f

def map (f : α → β) (p : Program I α) : Program I β := p.bind fun a => .done (f a)

/-- The run of a program with no other calls on the object in between. -/
def run {σ : Type} (object : Object I σ) : Program I α → σ → α × σ
  | .done a, s => (a, s)
  | .call c next, s => (next (object c s).1).run object (object c s).2

/-- All calls that the program may make are of some kind. -/
def Uses (P : I.Call → Prop) : Program I α → Prop
  | .done _ => True
  | .call c next => P c ∧ ∀ answer, (next answer).Uses P

variable {σ : Type} {object : Object I σ} {s : σ}

@[simp] theorem run_done (a : α) : (done a : Program I α).run object s = (a, s) := rfl

@[simp] theorem run_call (c : I.Call) (next : I.Answer c → Program I α) :
    (call c next).run object s = (next (object c s).1).run object (object c s).2 := rfl

@[simp] theorem run_bind (p : Program I α) (f : α → Program I β) :
    (p.bind f).run object s = (f (p.run object s).1).run object (p.run object s).2 := by
  induction p generalizing s with
  | done a => rfl
  | call c next ih => exact ih _

theorem Uses.bind {P : I.Call → Prop} {p : Program I α} {f : α → Program I β} (h : p.Uses P)
    (hf : ∀ a, (f a).Uses P) : (p.bind f).Uses P := by
  induction p with
  | done a => exact hf a
  | call c next ih => exact ⟨h.1, fun answer => ih answer (h.2 answer)⟩

theorem Uses.map {P : I.Call → Prop} {p : Program I α} (h : p.Uses P) (f : α → β) :
    (p.map f).Uses P :=
  h.bind fun _ => trivial

@[simp] theorem run_map (f : α → β) (p : Program I α) :
    (p.map f).run object s = (f (p.run object s).1, (p.run object s).2) :=
  p.run_bind _

end Program

/-- What is told of an object to somebody who makes calls on it while others do, too: the states in
which his calls find the object, and his calls so far, with the states before and after each. -/
structure Replay (σ : Type) where
  met : Nat → σ
  calls : List (σ × σ) := []

namespace Replay

variable {I : Interface} {σ : Type}

/-- A call with the state in which it finds the object. -/
def call {α : Type} (f : σ → α × σ) (r : Replay σ) : α × Replay σ :=
  let s := r.met r.calls.length
  ((f s).1, { r with calls := r.calls ++ [(s, (f s).2)] })

/-- The object as it is seen by one of those who make calls on it. -/
def object (object : Object I σ) : Object I (Replay σ) := fun c => call (object c)

/-- The states that are told are those of the calls so far. -/
def Tells (met : Nat → σ) (calls : List (σ × σ)) : Prop :=
  ∀ (k : Nat) (h : k < calls.length), met k = calls[k].1

instance [DecidableEq σ] (met : Nat → σ) (calls : List (σ × σ)) : Decidable (Tells met calls) :=
  inferInstanceAs (Decidable (∀ (k : Nat) (h : k < calls.length), met k = calls[k].1))

variable {met : Nat → σ} {calls more : List (σ × σ)} {s s' : σ}

theorem Tells.of_append (h : Tells met (calls ++ more)) : Tells met calls := by
  intro k hk
  have hk' : k < (calls ++ more).length := by
    rw [List.length_append]
    omega
  rw [h k hk', List.getElem_append_left hk]

theorem Tells.last (h : Tells met (calls ++ [(s, s')])) : met calls.length = s := by
  have hlast := h calls.length (by simp)
  simpa using hlast

/-- The call of somebody who is told the state in which it finds the object. -/
theorem call_of_tells {α : Type} {f : σ → α × σ} (h : Tells met (calls ++ [(s, (f s).2)])) :
    call f ⟨met, calls⟩ = ((f s).1, ⟨met, calls ++ [(s, (f s).2)]⟩) := by
  unfold call
  simp only [h.last]

end Replay

/-- A history of calls: each finds the object as the one before has left it. -/
def Linear {κ σ : Type} (s : σ) : List (κ × σ × σ) → σ → Prop
  | [], last => last = s
  | (_, before, after) :: calls, last => before = s ∧ Linear after calls last

namespace Linear

variable {κ σ : Type} {s before after last : σ} {calls : List (κ × σ × σ)}

theorem append_call (h : Linear s calls last) (key : κ) (after : σ) :
    Linear s (calls ++ [(key, last, after)]) after := by
  induction calls generalizing s with
  | nil => exact ⟨h, rfl⟩
  | cons call calls ih =>
    obtain ⟨hbefore, hrest⟩ := h
    exact ⟨hbefore, ih hrest⟩

end Linear

/-- The calls of a history that one of those who share the object has made. -/
def callsOf {κ σ : Type} [DecidableEq κ] (key : κ) (calls : List (κ × σ × σ)) : List (σ × σ) :=
  (calls.filter fun call => call.1 = key).map (·.2)

section CallsOf

variable {κ σ : Type} [DecidableEq κ] {key other : κ} {calls : List (κ × σ × σ)} {s s' : σ}

@[simp] theorem callsOf_append_self :
    callsOf key (calls ++ [(key, s, s')]) = callsOf key calls ++ [(s, s')] := by
  simp [callsOf]

theorem callsOf_append_of_ne (h : other ≠ key) :
    callsOf key (calls ++ [(other, s, s')]) = callsOf key calls := by
  simp [callsOf, h]

end CallsOf

end Interaction
