import Mathlib.Data.List.Infix

namespace Segments

variable {α : Type*}

/-- The first place of an element splits a list in one way only. -/
theorem append_cons_inj_of_first {x : α} {front front' back back' : List α} (hfront : x ∉ front)
    (hfront' : x ∉ front') (h : front ++ x :: back = front' ++ x :: back') :
    front = front' ∧ back = back' := by
  induction front generalizing front' with
  | nil =>
    cases front' with
    | nil => exact ⟨rfl, (List.cons.inj h).2⟩
    | cons y front' =>
      obtain ⟨rfl, -⟩ := List.cons.inj h
      exact absurd List.mem_cons_self hfront'
  | cons y front ih =>
    cases front' with
    | nil =>
      obtain ⟨rfl, -⟩ := List.cons.inj h
      exact absurd List.mem_cons_self hfront
    | cons z front' =>
      obtain ⟨rfl, htail⟩ := List.cons.inj h
      rw [List.mem_cons, not_or] at hfront hfront'
      obtain ⟨rfl, rfl⟩ := ih hfront.2 hfront'.2 htail
      exact ⟨rfl, rfl⟩

/-- A list that contains a word that is not empty has a first place of it. -/
theorem exists_first_infix {word s : List α} (hword : word ≠ []) (h : word <:+: s) :
    ∃ front back, s = front ++ (word ++ back) ∧ ¬ word <:+: front := by
  induction s with
  | nil => exact absurd (List.infix_nil.mp h) hword
  | cons x s ih =>
    by_cases hhead : word <+: x :: s
    · obtain ⟨back, hback⟩ := hhead
      exact ⟨[], back, hback.symm, fun hnil => hword (List.infix_nil.mp hnil)⟩
    · obtain ⟨front, back, rfl, hfirst⟩ := ih ((List.infix_cons_iff.mp h).resolve_left hhead)
      refine ⟨x :: front, back, rfl, fun hinside => ?_⟩
      rcases List.infix_cons_iff.mp hinside with hfront | hlater
      · exact hhead (hfront.trans ⟨word ++ back, rfl⟩)
      · exact hfirst hlater

/-- A word whose last element is nowhere else in it does not reach back over that element. -/
theorem suffix_of_suffix_append_cons {x : α} (word : List α) {front back : List α}
    (hword : x ∉ word) (hback : back ≠ []) (h : word ++ [x] <:+ front ++ x :: back) :
    word ++ [x] <:+ back := by
  rcases List.suffix_or_suffix_of_suffix h (List.suffix_append front (x :: back)) with hin | hover
  · refine (List.suffix_cons_iff.mp hin).resolve_left fun heq => ?_
    cases word with
    | nil => exact hback (List.cons.inj heq).2.symm
    | cons y word =>
      obtain rfl : y = x := (List.cons.inj heq).1
      exact hword List.mem_cons_self
  · obtain ⟨start, hstart⟩ := hover
    obtain ⟨back, y, rfl⟩ := (List.eq_nil_or_concat' back).resolve_left hback
    rw [← List.cons_append, ← List.append_assoc] at hstart
    obtain ⟨rfl, -⟩ := List.append_inj' hstart rfl
    exact absurd (List.mem_append_right start List.mem_cons_self) hword

end Segments
