import Mathlib.Data.List.TakeWhile

namespace Segments

variable {α : Type*} {keep : α → Bool}

theorem takeWhile_stop {front back : List α} (hfront : ∀ x ∈ front, keep x = true)
    (hback : ∀ x ∈ back.head?, keep x = false) : (front ++ back).takeWhile keep = front := by
  rw [List.takeWhile_append_of_pos hfront]
  cases back with
  | nil => rw [List.takeWhile_nil, List.append_nil]
  | cons x back =>
    rw [List.takeWhile_cons_of_neg (by simp [hback x rfl]), List.append_nil]

variable (keep) in
/-- Where a run of elements to keep ends is determined. -/
theorem append_inj_of_stop {front front' back back' : List α} (hfront : ∀ x ∈ front, keep x = true)
    (hback : ∀ x ∈ back.head?, keep x = false) (hfront' : ∀ x ∈ front', keep x = true)
    (hback' : ∀ x ∈ back'.head?, keep x = false) (h : front ++ back = front' ++ back') :
    front = front' ∧ back = back' := by
  have hsame : front = front' := by
    rw [← takeWhile_stop hfront hback, h, takeWhile_stop hfront' hback']
  subst hsame
  exact ⟨rfl, List.append_cancel_left h⟩

/-- The maximal runs of elements to keep in a list that stands at an offset, each with its offset
and its length: gaps and runs alternate. -/
inductive MaximalRuns (keep : α → Bool) : Nat → List α → List (Nat × Nat) → Prop where
  | gap {start : Nat} {gap : List α} (hgap : ∀ x ∈ gap, keep x = false) :
      MaximalRuns keep start gap []
  | run {start : Nat} {gap run rest : List α} {runs : List (Nat × Nat)}
      (hgap : ∀ x ∈ gap, keep x = false) (hne : run ≠ []) (hrun : ∀ x ∈ run, keep x = true)
      (hstop : ∀ x ∈ rest.head?, keep x = false)
      (hrest : MaximalRuns keep (start + gap.length + run.length) rest runs) :
      MaximalRuns keep start (gap ++ (run ++ rest)) ((start + gap.length, run.length) :: runs)

namespace MaximalRuns

variable {start : Nat} {xs : List α} {runs runs' : List (Nat × Nat)}

theorem length_pos (h : MaximalRuns keep start xs runs) : ∀ run ∈ runs, 0 < run.2 := by
  induction h with
  | gap hgap => simp
  | run hgap hne hrun hstop hrest ih =>
    intro run hmem
    rcases List.mem_cons.mp hmem with rfl | hmem
    · exact List.length_pos_iff.mpr hne
    · exact ih run hmem

/-- The elements of a gap are not those of a run. -/
theorem not_mem_of_gap {gap run rest : List α} (hgap : ∀ x ∈ gap ++ (run ++ rest), keep x = false)
    (hne : run ≠ []) (hrun : ∀ x ∈ run, keep x = true) : False := by
  obtain ⟨x, hx⟩ := List.exists_mem_of_ne_nil run hne
  have hkeep := hgap x (by simp [hx])
  rw [hrun x hx] at hkeep
  cases hkeep

theorem stop_of_run {run rest : List α} (hne : run ≠ []) (hrun : ∀ x ∈ run, keep x = true) :
    ∀ x ∈ (run ++ rest).head?, (!keep x) = false := by
  obtain ⟨x, xs, rfl⟩ := List.exists_cons_of_ne_nil hne
  simpa using hrun x List.mem_cons_self

/-- A list has one list of maximal runs. -/
theorem unique (h : MaximalRuns keep start xs runs) (h' : MaximalRuns keep start xs runs') :
    runs = runs' := by
  induction h generalizing runs' with
  | gap hgap =>
    cases h' with
    | gap _ => rfl
    | run _ hne hrun _ _ => exact (not_mem_of_gap hgap hne hrun).elim
  | @run start gap run rest runs hgap hne hrun hstop hrest ih =>
    generalize hxs : gap ++ (run ++ rest) = xs at h'
    cases h' with
    | gap hgap' => exact (not_mem_of_gap (hxs ▸ hgap') hne hrun).elim
    | @run _ gap' run' rest' runs' hgap' hne' hrun' hstop' hrest' =>
      obtain ⟨rfl, hback⟩ := append_inj_of_stop (fun x => !keep x)
        (fun x hx => by simp [hgap x hx]) (stop_of_run hne hrun)
        (fun x hx => by simp [hgap' x hx]) (stop_of_run hne' hrun') hxs
      obtain ⟨rfl, rfl⟩ := append_inj_of_stop keep hrun hstop hrun' hstop' hback
      rw [ih hrest']

end MaximalRuns

end Segments
