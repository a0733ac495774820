import Mathlib.Data.Fintype.Card
import Memcarrot.Server.Handoff
import Memcarrot.Server.WorkThread
import Memcarrot.Support.ListStore

open Function RawMemory Transition

namespace Memcarrot.RequestHandlers

variable {κ : Type} [DecidableEq κ] {n : Nat}

/-- No key is handed to a worker whose run has returned, and every key that is in use is held by a
worker that still runs. -/
structure Served (st : RequestHandlers κ n) : Prop where
  submit : ∀ key i, st.Hands i key → st.workers i ≠ .returned
  nextKey : ∀ i key, st.nextKey i = some key → st.workers i ≠ .returned
  inUse : ∀ key, st.attachment key = some true →
    ∃ i, (st.Hands i key ∨ st.Holds i key) ∧ st.workers i ≠ .returned

omit [DecidableEq κ] in
theorem Exclusive.served {st : RequestHandlers κ n} (h : st.Exclusive) : st.Served := by
  refine ⟨fun _ i _ => h.ne_returned i, fun i _ _ => h.ne_returned i, fun key hinUse => ?_⟩
  obtain ⟨i, hi⟩ := h.inUse hinUse
  exact ⟨i, hi, h.ne_returned i⟩

/-- A worker has ended after its finally block, and the others that are not busy wait for keys. -/
structure Deserted (st : RequestHandlers κ n) (i : Fin n) : Prop where
  returned : st.workers i = .returned
  idle : st.busy i = false
  others : ∀ j, j ≠ i → st.busy j = false → st.workers j = .waitForKey ∧ st.nextKey j = none

section Deserted

variable {mayThrow : κ → Bool} {mayRunOut : Bool} {st : RequestHandlers κ n} {i : Fin n} {key : κ}

/-- The server can go on to a state in which a key is handed to a worker that has ended. -/
def MayDesert (mayThrow : κ → Bool) (mayRunOut : Bool) (st : RequestHandlers κ n) : Prop :=
  ∃ st', Runs (step mayThrow mayRunOut) (fun _ _ => True) st st' ∧ ¬ st'.Served

namespace MayDesert

theorem of_follow {st' : RequestHandlers κ n} (events : List (Event κ n))
    (hfollow : follow (step mayThrow mayRunOut) st events = some st')
    (h : st'.MayDesert mayThrow mayRunOut) :
    st.MayDesert mayThrow mayRunOut := by
  obtain ⟨last, hrun, hnot⟩ := h
  exact ⟨last, (runs_of_follow hfollow fun _ _ _ => trivial).trans hrun, hnot⟩

theorem of_selectorStep (h : st.selectorStep.MayDesert mayThrow mayRunOut) :
    st.MayDesert mayThrow mayRunOut :=
  of_follow [.selector] rfl h

theorem of_hands (hreturned : st.workers i = .returned) (hhands : st.Hands i key) :
    st.MayDesert mayThrow mayRunOut :=
  ⟨st, .refl, fun hserved => hserved.submit key i hhands hreturned⟩

/-- One step of the scan of `submit`. -/
theorem of_isBusy {j : Nat} (hj : j < n)
    (hfound : ∀ m, st.busy m = false →
      MayDesert mayThrow mayRunOut { st with selector := .setInUse key m })
    (hnext : st.busy ⟨j, hj⟩ = true →
      MayDesert mayThrow mayRunOut { st with selector := .isBusy key (j + 1) }) :
    MayDesert mayThrow mayRunOut { st with selector := .isBusy key j } := by
  apply of_selectorStep
  cases hbusy : st.busy ⟨j, hj⟩ with
  | false => simpa [selectorStep, hj, hbusy] using hfound ⟨j, hj⟩ hbusy
  | true => simpa [selectorStep, hj, hbusy] using hnext hbusy

/-- The scan of `submit` comes to a worker that is not busy, if there is one: from where it stands
to its end, and then from the first worker on. -/
theorem of_scan (hidle : st.busy i = false)
    (hfound : ∀ m, st.busy m = false →
      MayDesert mayThrow mayRunOut { st with selector := .setInUse key m }) (j : Nat) :
    MayDesert mayThrow mayRunOut { st with selector := .isBusy key j } := by
  have hfirst : ∀ d j, d + j = i.val →
      MayDesert mayThrow mayRunOut { st with selector := .isBusy key j } := by
    intro d
    induction d with
    | zero =>
      intro j hj
      obtain rfl : j = i.val := by omega
      refine of_isBusy i.isLt hfound fun hbusy => ?_
      rw [hidle] at hbusy
      cases hbusy
    | succ d ih =>
      intro j hj
      exact of_isBusy (by omega) hfound fun _ => ih (j + 1) (by omega)
  have hrest : ∀ d j, n - j = d →
      MayDesert mayThrow mayRunOut { st with selector := .isBusy key j } := by
    intro d
    induction d with
    | zero =>
      intro j hj
      apply of_selectorStep
      have hend : ¬ j < n := by omega
      simpa [selectorStep, hend] using hfirst i.val 0 rfl
    | succ d ih =>
      intro j hj
      exact of_isBusy (by omega) hfound fun _ => ih (j + 1) (by omega)
  exact hrest _ j rfl

end MayDesert

namespace Deserted

/-- While other workers are not busy, one of them takes the key, releases it and stays busy until
its finally block is over: at last the scan finds the worker that has ended. -/
theorem mayDesert_isBusy (h : st.Deserted i) (key : κ) (j : Nat) :
    MayDesert mayThrow mayRunOut { st with selector := .isBusy key j } := by
  -- The induction is on the number of workers that are not busy.
  obtain ⟨c, hc⟩ : ∃ c, (Finset.univ.filter fun m => st.busy m = false).card = c :=
    ⟨_, rfl⟩
  induction c using Nat.strong_induction_on generalizing st j with
  | _ c ih =>
    refine MayDesert.of_scan h.idle (fun m hm => ?_) j
    by_cases hne : m = i
    · subst hne
      exact .of_selectorStep (.of_hands h.returned (.inl rfl))
    · obtain ⟨hwaits, hslot⟩ := h.others m hne hm
      let st' : RequestHandlers κ n := { st with
        attachment := update st.attachment key (some false)
        busy := update st.busy m true
        nextKey := update st.nextKey m (some key)
        workers := update st.workers m (.clearNextKey false)
        submitted := update st.submitted m (st.submitted m ++ [key])
        taken := update st.taken m (st.taken m ++ [key]) }
      have hst' : st'.Deserted i := by
        refine ⟨?_, ?_, fun l hl hidle => ?_⟩
        · simp [st', update_of_ne (Ne.symm hne), h.returned]
        · simp [st', update_of_ne (Ne.symm hne), h.idle]
        · have hlm : l ≠ m := by
            rintro rfl
            simp [st'] at hidle
          simp only [st', update_of_ne hlm] at hidle ⊢
          exact h.others l hl hidle
      have hfewer : (Finset.univ.filter fun l => st'.busy l = false).card < c := by
        rw [← hc]
        apply Finset.card_lt_card
        refine Finset.ssubset_iff_of_subset ?_ |>.mpr ⟨m, by simpa using hm, by simp [st']⟩
        intro l hl
        simp only [st', Finset.mem_filter, Finset.mem_univ, true_and] at hl ⊢
        by_cases hlm : l = m
        · simp [hlm] at hl
        · simpa [update_of_ne hlm] using hl
      refine .of_follow [.selector, .selector, .selector, .worker m, .finish m false, .worker m,
        .select key, .selector] ?_ (ih _ hfewer hst' 0 rfl)
      simp [st', follow, step, selectorStep, workerStep, hwaits, hslot]

/-- The selector thread ends what it does, and selects a key that is not in use. -/
theorem mayDesert_select (h : st.Deserted i) (key : κ)
    (hkey : st.attachment key ≠ some true)
    (hs : st.selector = .select) : st.MayDesert mayThrow mayRunOut := by
  refine .of_follow [.select key, .selector] ?_ (h.mayDesert_isBusy key 0)
  simp [follow, step, selectorStep, hs, hkey]

theorem mayDesert_compareAndSet (h : st.Deserted i) (key : κ)
    (hkey : st.attachment key ≠ some true)
    {key' : κ} {m : Fin n} (hs : st.selector = .compareAndSet key' m) (hbusy : st.busy m = true)
    (hslot : st.nextKey m = none) : st.MayDesert mayThrow mayRunOut := by
  apply MayDesert.of_selectorStep
  simp only [selectorStep, hs, hslot, if_true]
  refine mayDesert_select ⟨h.returned, h.idle, fun l hl hidle => ?_⟩ key hkey rfl
  have hlm : l ≠ m := by
    rintro rfl
    simp [hbusy] at hidle
  simpa only [update_of_ne hlm] using h.others l hl hidle

theorem mayDesert_setBusy (h : st.Deserted i) (key : κ)
    (hkey : st.attachment key ≠ some true)
    {key' : κ} {m : Fin n} (hs : st.selector = .setBusy key' m) (hidle : st.busy m = false) :
    st.MayDesert mayThrow mayRunOut := by
  by_cases hne : m = i
  · subst hne
    exact .of_hands h.returned (.inl hs)
  · apply MayDesert.of_selectorStep
    simp only [selectorStep, hs]
    refine mayDesert_compareAndSet ⟨h.returned, ?_, fun l hl hidle' => ?_⟩ key hkey rfl
      (by simp) (h.others m hne hidle).2
    · simpa only [update_of_ne (Ne.symm hne)] using h.idle
    · have hlm : l ≠ m := by
        rintro rfl
        simp at hidle'
      simp only [update_of_ne hlm] at hidle'
      exact h.others l hl hidle'

/-- Whatever the selector thread does, it comes to hand a key to the worker that has ended. -/
theorem mayDesert (h : st.Deserted i) (key : κ) (hkey : st.attachment key ≠ some true)
    (hsetInUse : ∀ key' m, st.selector = .setInUse key' m → key ≠ key' ∧ st.busy m = false)
    (hsetBusy : ∀ key' m, st.selector = .setBusy key' m → st.busy m = false)
    (hcompareAndSet : ∀ key' m, st.selector = .compareAndSet key' m →
      st.busy m = true ∧ st.nextKey m = none) : st.MayDesert mayThrow mayRunOut := by
  cases hs : st.selector with
  | select => exact h.mayDesert_select key hkey hs
  | inUse key' =>
    apply MayDesert.of_selectorStep
    by_cases hinUse : st.attachment key' = some true
    · simp only [selectorStep, hs, hinUse, if_true]
      exact mayDesert_select ⟨h.returned, h.idle, h.others⟩ key hkey rfl
    · simp only [selectorStep, hs, hinUse, if_false]
      exact h.mayDesert_isBusy key' 0
  | isBusy key' j =>
    have hscan : MayDesert mayThrow mayRunOut { st with selector := .isBusy key' j } :=
      h.mayDesert_isBusy key' j
    rwa [← hs] at hscan
  | setInUse key' m =>
    obtain ⟨hne, hidle⟩ := hsetInUse key' m hs
    apply MayDesert.of_selectorStep
    simp only [selectorStep, hs]
    exact mayDesert_setBusy ⟨h.returned, h.idle, h.others⟩ key
      (by simpa only [update_of_ne hne] using hkey) rfl hidle
  | setBusy key' m => exact h.mayDesert_setBusy key hkey hs (hsetBusy key' m hs)
  | compareAndSet key' m =>
    obtain ⟨hbusy, hslot⟩ := hcompareAndSet key' m hs
    exact h.mayDesert_compareAndSet key hkey hs hbusy hslot

end Deserted

/-- A worker that throws clears its slot and its flag before it ends. -/
theorem Exclusive.mayDesert (h : st.Exclusive) (hworker : st.workers i = .process key) :
    MayDesert mayThrow mayRunOut
      { st with workers := update st.workers i (.release key true) } := by
  have haccords := h.workers i
  rw [hworker] at haccords
  obtain ⟨hslot, hbusy⟩ := haccords
  have hholds : st.Holds i key := ⟨hslot, by rw [hworker]; rfl⟩
  have hinUse := h.held hholds
  let st' : RequestHandlers κ n := { st with
    attachment := update st.attachment key (some false)
    nextKey := update st.nextKey i none
    busy := update st.busy i false
    workers := update st.workers i .returned }
  have hst' : st'.Deserted i := by
    refine ⟨by simp [st'], by simp [st'], fun m hm hidle => ?_⟩
    simp only [st', update_of_ne hm] at hidle ⊢
    have haccords := h.workers m
    rw [hidle] at haccords
    exact haccords.eq_waitForKey
  refine .of_follow [.worker i, .worker i, .worker i] ?_
    (hst'.mayDesert key (by simp [st']) ?_ ?_ ?_)
  · simp [st', follow, RequestHandlers.step, RequestHandlers.workerStep, hinUse]
  all_goals
    intro key' m hs
    have hselector := h.selector
    simp only [SelectorAccords, show st.selector = _ from hs] at hselector
  · have hne : m ≠ i := by
      rintro rfl
      simp [hbusy] at hselector
    refine ⟨?_, by simpa [st', update_of_ne hne] using hselector.2⟩
    rintro rfl
    exact hselector.1 hinUse
  · have hne : m ≠ i := by
      rintro rfl
      simp [hbusy] at hselector
    simpa [st', update_of_ne hne] using hselector.2.1
  · obtain ⟨-, hbusy', -, hslot', -⟩ := hselector
    have hne : m ≠ i := by
      rintro rfl
      simp [hslot] at hslot'
    simpa [st', update_of_ne hne] using ⟨hbusy', hslot'⟩

omit [DecidableEq κ] in
/-- A worker without buffers keeps in its slot the key that it has taken. -/
theorem not_served_of_outOfMemory {st' : RequestHandlers κ n} (h : st.outOfMemory i = some st') :
    ¬ st'.Served := by
  obtain ⟨key, -, hslot, -, rfl⟩ := outOfMemory_eq_some h
  exact fun hserved => hserved.nextKey i key hslot (update_self ..)

/-- As soon as a worker has ended, the server may come to a key that is handed to it. -/
theorem exists_not_served (h : st.Exclusive) {e : Event κ n} (hends : e.ends = true)
    {st' : RequestHandlers κ n} (hstep : st.step mayThrow mayRunOut e = some st') :
    st'.MayDesert mayThrow mayRunOut := by
  cases e with
  | finish i thrown =>
    obtain rfl : thrown = true := hends
    cases hworker : st.workers i with
    | process key =>
      simp only [step, hworker, true_and, Option.ite_none_left_eq_some, Option.some.injEq] at hstep
      rw [← hstep.2]
      exact h.mayDesert hworker
    | _ => simp [step, hworker] at hstep
  | outOfMemory i =>
    simp only [step, Option.ite_none_right_eq_some] at hstep
    exact ⟨st', .refl, not_served_of_outOfMemory hstep.2⟩
  | _ => cases hends

end Deserted

section Start

variable {mayThrow : κ → Bool} {mayRunOut : Bool}

/-- With a worker, a key comes to be put into the slot of the first one. -/
theorem exists_submitted (mayThrow : κ → Bool) (mayRunOut : Bool) (key : κ) :
    ∃ st : RequestHandlers κ (n + 1),
      Runs (step mayThrow mayRunOut) (fun _ e => e.ends = false) {} st ∧
        st.workers 0 = .waitForKey ∧ st.nextKey 0 = some key ∧ st.taken 0 = [] := by
  let events : List (Event κ (n + 1)) :=
    [.select key, .selector, .selector, .selector, .selector, .selector]
  obtain ⟨st, hst, hworker⟩ : ∃ st : RequestHandlers κ (n + 1),
      follow (step mayThrow mayRunOut) {} events = some st ∧
        st.workers 0 = .waitForKey ∧ st.nextKey 0 = some key ∧ st.taken 0 = [] := by
    simp [events, follow, step, selectorStep]
  exact ⟨st, runs_of_follow hst (by simp [events, Event.ends]), hworker⟩

/-- With a worker, a key whose requests make the processing throw comes to be processed. -/
theorem exists_mayDesert (key : κ) (hthrow : mayThrow key = true) :
    MayDesert mayThrow mayRunOut ({} : RequestHandlers κ (n + 1)) := by
  obtain ⟨st, hrun, hwaits, hslot, -⟩ := exists_submitted (n := n) mayThrow mayRunOut key
  obtain ⟨next, hnext, hworker⟩ : ∃ next : RequestHandlers κ (n + 1),
      st.step mayThrow mayRunOut (.worker 0) = some next ∧ next.workers 0 = .process key := by
    simp [step, workerStep, hwaits, hslot]
  have hexclusive : next.Exclusive := (exclusive_of_runs hrun).step rfl hnext
  have hdesert : MayDesert mayThrow mayRunOut next := by
    refine .of_follow [.finish 0 true] ?_ (hexclusive.mayDesert hworker)
    simp [follow, step, hworker, hthrow]
  obtain ⟨last, hlast, hnot⟩ := hdesert
  have hfirst : Runs (step mayThrow mayRunOut) (fun _ _ => True) {} next :=
    (Runs.mono (fun _ _ _ => trivial) hrun).tail ⟨.worker 0, trivial, hnext⟩
  exact ⟨last, hfirst.trans hlast, hnot⟩

/-- With a worker and a key, the memory may run out when the key is taken. -/
theorem exists_not_served_outOfMemory (mayThrow : κ → Bool) (key : κ) :
    MayDesert mayThrow true ({} : RequestHandlers κ (n + 1)) := by
  obtain ⟨st, hrun, hwaits, hslot, htaken⟩ := exists_submitted (n := n) mayThrow true key
  obtain ⟨next, hnext⟩ : ∃ next, st.outOfMemory 0 = some next := by
    simp [outOfMemory, hwaits, hslot, htaken]
  have hfirst : Runs (step mayThrow true) (fun _ _ => True) {} next :=
    (Runs.mono (fun _ _ _ => trivial) hrun).tail ⟨.outOfMemory 0, trivial, hnext⟩
  exact ⟨next, hfirst, not_served_of_outOfMemory hnext⟩

end Start

/-- In every run in which no worker ends, keys are handed to running workers only, and once one has
ended, by what its processing throws or without memory for its buffers, the server may hand a key
to it. In all runs, they are handed to running workers exactly if there are no workers, or none
ever ends so. -/
theorem served_iff (mayThrow : κ → Bool) (mayRunOut : Bool) :
    (∀ st : RequestHandlers κ n,
      Runs (step mayThrow mayRunOut) (fun _ e => e.ends = false) {} st →
        st.Served ∧ ∀ e st', e.ends = true → st.step mayThrow mayRunOut e = some st' →
          ∃ last, Runs (step mayThrow mayRunOut) (fun _ _ => True) st' last ∧ ¬ last.Served) ∧
    ((∀ st : RequestHandlers κ n, st.Reachable mayThrow mayRunOut → st.Served) ↔
      n = 0 ∨ ∀ key, mayThrow key = false ∧ mayRunOut = false) := by
  refine ⟨fun st hrun => ?_, fun hserved => ?_, fun hnever st hreachable => ?_⟩
  · have hexclusive := exclusive_of_runs hrun
    exact ⟨hexclusive.served, fun e st' hends hstep => exists_not_served hexclusive hends hstep⟩
  · cases n with
    | zero => exact .inl rfl
    | succ n =>
      refine .inr fun key => ⟨?_, ?_⟩
      · by_contra hne
        obtain ⟨st, hreachable, hnot⟩ := exists_mayDesert key (eq_true_of_ne_false hne)
        exact hnot (hserved st hreachable)
      · by_contra hne
        obtain rfl := eq_true_of_ne_false hne
        obtain ⟨st, hreachable, hnot⟩ := exists_not_served_outOfMemory (n := n) mayThrow key
        exact hnot (hserved st hreachable)
  · refine (hreachable.exclusive fun i key => ?_).served
    rcases hnever with rfl | hnever
    · exact i.elim0
    · exact hnever key

/-- A thread that takes a key and reads these bytes is ended by what their processing throws. -/
def endsThread {σ : Type} (services : Services σ) (bufferSize : Nat) (s : σ) (bytes : List UInt8) :
    Bool :=
  (follow (WorkThread.step services bufferSize) { store := s }
    [.activate (fun _ => 0) 1, .read bytes, .advance]).any fun thread => thread.phase = .dead

/-- The keys are named by what arrives on them. -/
theorem not_served_one_worker :
    ¬ ∀ st : RequestHandlers (List UInt8) 1,
      st.Reachable (endsThread listServices 128 {}) false → st.Served := by
  intro hserved
  obtain ⟨st, hreachable, hnot⟩ : MayDesert (endsThread listServices 128 {}) false
      ({} : RequestHandlers (List UInt8) 1) :=
    exists_mayDesert (ascii "gat\r\n") (by decide +kernel)
  exact hnot (hserved st hreachable)

end Memcarrot.RequestHandlers
