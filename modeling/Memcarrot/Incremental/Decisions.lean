import Mathlib.Data.List.Infix
import Mathlib.Logic.Relation

open Relation

namespace Incremental

/-- What is made of the part of a stream that has arrived: it is left until there is more, or items
are taken from its front with some output, or it is the end. -/
inductive Decision (ω σ : Type) where
  | wait
  | take (count : Nat) (output : ω) (next : σ)
  | stop (output : ω) (next : σ)
  deriving DecidableEq, Repr

abbrev Decider (β ω σ : Type) := List β → σ → Decision ω σ

/-- Where the decisions about a stream have come to: what is left of it, the outputs and the
store. -/
structure Progress (β ω σ : Type) where
  input : List β
  output : List ω := []
  store : σ
  stopped : Bool := false

namespace Progress

variable {β ω σ : Type} {p p' : Progress β ω σ}

/-- More of the stream has arrived. -/
def extend (p : Progress β ω σ) (items : List β) : Progress β ω σ :=
  { p with input := p.input ++ items }

@[simp] theorem extend_nil (p : Progress β ω σ) : p.extend [] = p := by
  simp [extend]

@[simp] theorem extend_extend (p : Progress β ω σ) (items more : List β) :
    (p.extend items).extend more = p.extend (items ++ more) := by
  simp [extend]

/-- A decision that may be taken before all of the stream has arrived: more items at the end would
not change it, and it takes no more than there is. -/
structure Ready (D : Decider β ω σ) (p : Progress β ω σ) : Prop where
  stable : ∀ more, D (p.input ++ more) p.store = D p.input p.store
  inside : ∀ {count output next}, D p.input p.store = .take count output next →
    count ≤ p.input.length

/-- The next decision is taken. -/
inductive Step (D : Decider β ω σ) : Progress β ω σ → Progress β ω σ → Prop where
  | take {p : Progress β ω σ} {count : Nat} {output : ω} {next : σ} (hgoes : p.stopped = false)
      (h : D p.input p.store = .take count output next) :
      Step D p { p with
        input := p.input.drop count, output := p.output ++ [output], store := next }
  | stop {p : Progress β ω σ} {output : ω} {next : σ} (hgoes : p.stopped = false)
      (h : D p.input p.store = .stop output next) :
      Step D p { p with output := p.output ++ [output], store := next, stopped := true }

/-- There is nothing to decide. -/
def Rests (D : Decider β ω σ) (p : Progress β ω σ) : Prop :=
  p.stopped = true ∨ D p.input p.store = .wait

section Rules

variable {D : Decider β ω σ}

theorem Step.unique {q : Progress β ω σ} (h : Step D p p') (h' : Step D p q) : p' = q := by
  cases h with
  | take hgoes hp =>
    cases h' with
    | take _ hq =>
      rw [hp] at hq
      cases hq
      rfl
    | stop _ hq =>
      rw [hp] at hq
      cases hq
  | stop hgoes hp =>
    cases h' with
    | take _ hq =>
      rw [hp] at hq
      cases hq
    | stop _ hq =>
      rw [hp] at hq
      cases hq
      rfl

theorem Rests.not_step (h : p.Rests D) : ¬ Step D p p' := by
  intro hstep
  rcases h with hstopped | hwait
  · cases hstep with
    | take hgoes _ | stop hgoes _ => simp [hstopped] at hgoes
  · cases hstep with
    | take _ hp | stop _ hp => simp [hwait] at hp

theorem Step.output_prefix (h : Step D p p') : p.output <+: p'.output := by
  cases h with
  | take | stop => exact List.prefix_append _ _

theorem output_prefix_of_steps (h : ReflTransGen (Step D) p p') : p.output <+: p'.output := by
  induction h with
  | refl => exact List.prefix_rfl
  | tail _ hstep ih => exact ih.trans hstep.output_prefix

/-- A decision that is ready is the one that is taken once more of the stream has arrived. -/
theorem Step.extend (h : Step D p p') (hready : p.Ready D) (more : List β) :
    Step D (p.extend more) (p'.extend more) := by
  cases h with
  | @take count output next hgoes hp =>
    have hdrop := @List.drop_append_of_le_length _ _ more _ (hready.inside hp)
    have hstep := Step.take (p := p.extend more) hgoes ((hready.stable more).trans hp)
    simp only [Progress.extend, hdrop] at hstep ⊢
    exact hstep
  | stop hgoes hp => exact Step.stop (p := p.extend more) hgoes ((hready.stable more).trans hp)

/-- A run on a stream that arrives in pieces, from a store, with what has arrived: only decisions
that are ready are taken. -/
inductive Arrives (D : Decider β ω σ) (s : σ) : List β → Progress β ω σ → Prop where
  | start : Arrives D s [] { input := [], store := s }
  | receive {received : List β} {p : Progress β ω σ} (h : Arrives D s received p)
      (items : List β) : Arrives D s (received ++ items) (p.extend items)
  | decide {received : List β} {p p' : Progress β ω σ} (h : Arrives D s received p)
      (hready : p.Ready D) (hstep : Step D p p') : Arrives D s received p'

/-- What is decided piece by piece is decided on the whole stream. -/
theorem Arrives.steps {s : σ} {received : List β} (h : Arrives D s received p) (more : List β) :
    ReflTransGen (Step D) { input := received ++ more, store := s } (p.extend more) := by
  induction h generalizing more with
  | start => exact .refl
  | receive h items ih =>
    rw [List.append_assoc, extend_extend]
    exact ih (items ++ more)
  | decide h hready hstep ih => exact (ih more).tail (hstep.extend hready more)

/-- Of two runs on a stream, the one that has received more of it and rests has come as far as the
other. -/
theorem Arrives.steps_of_prefix {s : σ} {received received' more : List β}
    (h : Arrives D s received p) (h' : Arrives D s received' p') (hrests : p'.Rests D)
    (hmore : received ++ more = received') : ReflTransGen (Step D) (p.extend more) p' := by
  have hsteps := h.steps more
  have hsteps' := h'.steps []
  rw [List.append_nil, extend_nil, ← hmore] at hsteps'
  have hunique : Relator.RightUnique (Step D) := fun _ _ _ hone hother => hone.unique hother
  rcases ReflTransGen.total_of_right_unique hunique hsteps hsteps' with hforth | hback
  · exact hforth
  · rcases hback.cases_head with heq | ⟨q, hstep, -⟩
    · rw [heq]
    · exact absurd hstep hrests.not_step

theorem Arrives.output_prefix {s : σ} {received received' : List β}
    (h : Arrives D s received p) (h' : Arrives D s received' p') (hrests : p'.Rests D)
    (hless : received <+: received') : p.output <+: p'.output := by
  obtain ⟨more, hmore⟩ := hless
  have houtput := output_prefix_of_steps (h.steps_of_prefix h' hrests hmore)
  exact houtput

/-- Two runs that have received the same and rest have come to the same, however it was cut. -/
theorem Arrives.eq_of_rests {s : σ} {received : List β} (h : Arrives D s received p)
    (h' : Arrives D s received p') (hrests : p.Rests D) (hrests' : p'.Rests D) : p = p' := by
  have hsteps := h.steps_of_prefix h' hrests' (List.append_nil received)
  rw [extend_nil] at hsteps
  rcases hsteps.cases_head with heq | ⟨q, hstep, -⟩
  · exact heq
  · exact absurd hstep hrests.not_step

end Rules

end Progress

end Incremental
