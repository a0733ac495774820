import Memcarrot.Server.Handoff

open Function Transition

namespace Memcarrot.RequestHandlers

variable {κ : Type} {n : Nat}

/-- A worker has the key in its slot and has not released it. It keeps a key that was put there
after its end for ever. -/
def Keeps (st : RequestHandlers κ n) (i : Fin n) (key : κ) : Prop :=
  st.nextKey i = some key ∧ ∀ thrown, st.workers i ≠ .clearNextKey thrown

/-- The worker is between the take of the key and its release. -/
def Occupied (st : RequestHandlers κ n) (i : Fin n) (key : κ) : Prop :=
  st.workers i = .process key ∨ ∃ thrown, st.workers i = .release key thrown

/-- What the selector thread has found of the key, where it stands. -/
def SelectorSeparates (st : RequestHandlers κ n) : Prop :=
  match st.selector with
  | .select | .inUse _ => True
  | .isBusy key _ | .setInUse key _ => st.attachment key ≠ some true
  | .setBusy key _ | .compareAndSet key _ =>
    st.attachment key = some true ∧ ∀ j, ¬ st.Keeps j key

/-- The part of the invariant of the hand-off that remains when workers end: whoever keeps a key
keeps it alone. -/
structure Separate (st : RequestHandlers κ n) : Prop where
  selector : st.SelectorSeparates
  slot : ∀ {i key}, st.Occupied i key → st.nextKey i = some key
  inUse : ∀ {i key}, st.Keeps i key → st.attachment key = some true
  unique : ∀ {i j key}, st.Keeps i key → st.Keeps j key → i = j

namespace Separate

variable {st st' : RequestHandlers κ n} {i : Fin n} {key : κ}

theorem start : ({} : RequestHandlers κ n).Separate where
  selector := trivial
  slot h := by simp [Occupied] at h
  inUse h := nomatch h.1
  unique h _ := nomatch h.1

theorem keeps (h : st.Separate) (hoccupied : st.Occupied i key) : st.Keeps i key := by
  refine ⟨h.slot hoccupied, fun thrown hworker => ?_⟩
  simp [Occupied, hworker] at hoccupied

/-- Two workers never process the same key. -/
theorem process_unique (h : st.Separate) {j : Fin n} (hi : st.workers i = .process key)
    (hj : st.workers j = .process key) : i = j :=
  h.unique (h.keeps (.inl hi)) (h.keeps (.inl hj))

/-- The selector thread goes on without a change of what it shares with the workers. -/
theorem move (h : st.Separate) {s : SelectorThread κ n}
    (hs : SelectorSeparates { st with selector := s }) : Separate { st with selector := s } :=
  ⟨hs, h.slot, h.inUse, h.unique⟩

/-- A step of a worker after which nobody keeps more than before. -/
theorem of_keeps (h : st.Separate) (hselector : st'.selector = st.selector)
    (hattachment : st'.attachment = st.attachment)
    (hslot : ∀ {i key}, st'.Occupied i key → st'.nextKey i = some key)
    (hkeeps : ∀ {i key}, st'.Keeps i key → st.Keeps i key) : st'.Separate := by
  refine ⟨?_, hslot, fun hi => ?_, fun hi hj => h.unique (hkeeps hi) (hkeeps hj)⟩
  · have hs := h.selector
    unfold SelectorSeparates at hs ⊢
    rw [hselector, hattachment]
    cases hcase : st.selector with
    | select | inUse => trivial
    | isBusy key i | setInUse key i =>
      rw [hcase] at hs
      exact hs
    | setBusy key i | compareAndSet key i =>
      rw [hcase] at hs
      exact ⟨hs.1, fun j hj => hs.2 j (hkeeps hj)⟩
  · rw [hattachment]
    exact h.inUse (hkeeps hi)

/-- The worker `i` goes on with what it does, and its slot. -/
theorem goto (h : st.Separate) (w : Worker κ) (slot : Option κ) (taken : Fin n → List κ)
    (busy : Fin n → Bool)
    (hslot : ∀ key, (w = .process key ∨ ∃ thrown, w = .release key thrown) → slot = some key)
    (hkeeps : ∀ key, slot = some key → (∀ thrown, w ≠ .clearNextKey thrown) →
      st.Keeps i key) :
    Separate { st with
      workers := update st.workers i w, nextKey := update st.nextKey i slot, taken, busy } := by
  refine h.of_keeps rfl rfl ?_ ?_
  · intro j key hoccupied
    by_cases hj : j = i
    · subst hj
      simp only [Occupied, update_self] at hoccupied ⊢
      exact hslot key hoccupied
    · simp only [Occupied, update_of_ne hj] at hoccupied ⊢
      exact h.slot hoccupied
  · intro j key hj'
    by_cases hj : j = i
    · subst hj
      simp only [Keeps, update_self] at hj'
      exact hkeeps key hj'.1 hj'.2
    · simp only [Keeps, update_of_ne hj] at hj'
      exact hj'

theorem compareAndSet (h : st.Separate) (hs : st.selector = .compareAndSet key i)
    (hslot : st.nextKey i = none) (submitted : Fin n → List κ) :
    Separate { st with
      nextKey := update st.nextKey i (some key), submitted, selector := .select } := by
  have hselector := h.selector
  simp only [SelectorSeparates, hs] at hselector
  obtain ⟨hinUse, hnone⟩ := hselector
  let st' : RequestHandlers κ n := { st with
    nextKey := update st.nextKey i (some key), submitted, selector := .select }
  have hkeeps {j : Fin n} {key' : κ} (hj : st'.Keeps j key') :
      (j = i ∧ key' = key) ∨ st.Keeps j key' := by
    by_cases hji : j = i
    · subst hji
      simp only [Keeps, st', update_self, Option.some.injEq] at hj
      exact .inl ⟨rfl, hj.1.symm⟩
    · simp only [Keeps, st', update_of_ne hji] at hj
      exact .inr hj
  change st'.Separate
  refine ⟨trivial, ?_, ?_, ?_⟩
  · intro j key' hoccupied
    have hbefore := h.slot hoccupied
    have hji : j ≠ i := by
      rintro rfl
      rw [hslot] at hbefore
      cases hbefore
    simp only [st', update_of_ne hji]
    exact hbefore
  · intro j key' hj
    rcases hkeeps hj with ⟨-, rfl⟩ | hj
    · exact hinUse
    · exact h.inUse hj
  · intro j k key' hj hk
    rcases hkeeps hj with ⟨rfl, rfl⟩ | hj'
    · rcases hkeeps hk with ⟨rfl, -⟩ | hk'
      · rfl
      · exact absurd hk' (hnone k)
    · rcases hkeeps hk with ⟨rfl, rfl⟩ | hk'
      · exact absurd hj' (hnone j)
      · exact h.unique hj' hk'

theorem finish (h : st.Separate) (hworker : st.workers i = .process key) (thrown : Bool) :
    Separate { st with workers := update st.workers i (.release key thrown) } := by
  have hslot := h.slot (.inl hworker)
  have hfinish := h.goto (i := i) (.release key thrown) (st.nextKey i) st.taken st.busy
    (by simp [hslot]) (fun key' hkey' _ => ⟨hkey', by simp [hworker]⟩)
  simpa only [update_eq_self] using hfinish

/-- The worker that ends without buffers keeps its key. -/
theorem outOfMemory (h : st.Separate) (hstep : st.outOfMemory i = some st') : st'.Separate := by
  obtain ⟨key, hworker, hslot, -, rfl⟩ := outOfMemory_eq_some hstep
  have hend := h.goto (i := i) .returned (st.nextKey i) (update st.taken i [key]) st.busy
    (by simp) (fun key' hkey' _ => ⟨hkey', by simp [hworker]⟩)
  simpa only [update_eq_self] using hend

variable [DecidableEq κ]

theorem setInUse (h : st.Separate) (hs : st.selector = .setInUse key i) :
    Separate { st with
      attachment := update st.attachment key (some true), selector := .setBusy key i } := by
  have hfree := h.selector
  simp only [SelectorSeparates, hs] at hfree
  have hnone (j : Fin n) : ¬ st.Keeps j key := fun hj => hfree (h.inUse hj)
  refine ⟨⟨update_self .., hnone⟩, h.slot, fun {j key'} hj => ?_, h.unique⟩
  have hne : key' ≠ key := by
    rintro rfl
    exact hnone j hj
  simp only [update_of_ne hne]
  exact h.inUse hj

theorem release (h : st.Separate) {thrown : Bool} (hworker : st.workers i = .release key thrown) :
    Separate { st with
      attachment := update st.attachment key (some false)
      workers := update st.workers i (.clearNextKey thrown) } := by
  have hkey : st.Keeps i key := h.keeps (.inr ⟨thrown, hworker⟩)
  let st' : RequestHandlers κ n := { st with
    attachment := update st.attachment key (some false)
    workers := update st.workers i (.clearNextKey thrown) }
  have hkeeps {j : Fin n} {key' : κ} (hj : st'.Keeps j key') : key' ≠ key ∧ st.Keeps j key' := by
    have hji : j ≠ i := by
      rintro rfl
      exact hj.2 thrown (update_self ..)
    simp only [Keeps, st', update_of_ne hji] at hj
    refine ⟨?_, hj⟩
    rintro rfl
    exact hji (h.unique hj hkey)
  change st'.Separate
  refine ⟨?_, ?_, ?_, fun hi hj => h.unique (hkeeps hi).2 (hkeeps hj).2⟩
  · have hs := h.selector
    unfold SelectorSeparates at hs ⊢
    change match st.selector with
      | .select | .inUse _ => True
      | .isBusy key _ | .setInUse key _ => st'.attachment key ≠ some true
      | .setBusy key _ | .compareAndSet key _ =>
        st'.attachment key = some true ∧ ∀ j, ¬ st'.Keeps j key
    cases hcase : st.selector with
    | select | inUse => trivial
    | isBusy key' j | setInUse key' j =>
      rw [hcase] at hs
      by_cases heq : key' = key
      · subst heq
        simp [st']
      · simpa only [st', update_of_ne heq] using hs
    | setBusy key' j | compareAndSet key' j =>
      rw [hcase] at hs
      have heq : key' ≠ key := by
        rintro rfl
        exact hs.2 i hkey
      refine ⟨?_, fun j hj => hs.2 j (hkeeps hj).2⟩
      simpa only [st', update_of_ne heq] using hs.1
  · intro j key' hoccupied
    by_cases hji : j = i
    · subst hji
      simp [Occupied, st'] at hoccupied
    · simp only [Occupied, st', update_of_ne hji] at hoccupied
      exact h.slot hoccupied
  · intro j key' hj
    obtain ⟨hne, hj⟩ := hkeeps hj
    simp only [st', update_of_ne hne]
    exact h.inUse hj

theorem selectorStep (h : st.Separate) : st.selectorStep.Separate := by
  have hs := h.selector
  unfold RequestHandlers.selectorStep
  cases hcase : st.selector with
  | select => exact h
  | inUse key =>
    simp only
    split
    case isTrue => exact h.move trivial
    case isFalse hne => exact h.move hne
  | isBusy key i =>
    simp only [SelectorSeparates, hcase] at hs
    simp only
    split
    case isTrue =>
      split
      case isTrue => exact h.move hs
      case isFalse => exact h.move hs
    case isFalse => exact h.move hs
  | setInUse key i => exact h.setInUse hcase
  | setBusy key i =>
    simp only [SelectorSeparates, hcase] at hs
    exact ⟨hs, h.slot, h.inUse, h.unique⟩
  | compareAndSet key i =>
    simp only
    split
    case isTrue hslot => exact h.compareAndSet hcase hslot _
    case isFalse => exact h

theorem workerStep (h : st.Separate) (i : Fin n) : (st.workerStep i).Separate := by
  unfold RequestHandlers.workerStep
  cases hworker : st.workers i with
  | waitForKey =>
    cases hslot : st.nextKey i with
    | none => exact h
    | some key =>
      have htake := h.goto (i := i) (.process key) (st.nextKey i)
        (update st.taken i (st.taken i ++ [key])) st.busy (by simp [hslot])
        (fun key' hkey' _ => ⟨hkey', by simp [hworker]⟩)
      simpa only [update_eq_self] using htake
  | process key => exact h
  | release key thrown =>
    simp only
    split
    case isTrue hnone =>
      have hinUse := h.inUse (h.keeps (.inr ⟨thrown, hworker⟩))
      rw [hnone] at hinUse
      cases hinUse
    case isFalse => exact h.release hworker
  | clearNextKey thrown =>
    have hclear := h.goto (i := i) (.clearBusy thrown) none st.taken st.busy (by simp) (by simp)
    exact hclear
  | clearBusy thrown =>
    have hclear := h.goto (i := i) (if thrown then .returned else .waitForKey) (st.nextKey i)
      st.taken (update st.busy i false) (by cases thrown <;> simp)
      (fun key' hkey' _ => ⟨hkey', by simp [hworker]⟩)
    simpa only [update_eq_self] using hclear
  | returned => exact h

theorem step (h : st.Separate) {mayThrow : κ → Bool} {mayRunOut : Bool} {e : Event κ n}
    (hstep : st.step mayThrow mayRunOut e = some st') : st'.Separate := by
  unfold RequestHandlers.step at hstep
  cases e with
  | select key =>
    cases hs : st.selector with
    | select =>
      simp only [hs, Option.some.injEq] at hstep
      rw [← hstep]
      exact h.move trivial
    | _ => simp [hs] at hstep
  | selector =>
    simp only [Option.some.injEq] at hstep
    rw [← hstep]
    exact h.selectorStep
  | worker i =>
    simp only [Option.some.injEq] at hstep
    rw [← hstep]
    exact h.workerStep i
  | finish i thrown =>
    cases hworker : st.workers i with
    | process key =>
      simp only [hworker, Option.ite_none_left_eq_some, Option.some.injEq] at hstep
      rw [← hstep.2]
      exact h.finish hworker thrown
    | _ => simp [hworker] at hstep
  | outOfMemory i =>
    simp only [Option.ite_none_right_eq_some] at hstep
    exact h.outOfMemory hstep.2

end Separate

variable [DecidableEq κ] {mayThrow : κ → Bool} {mayRunOut : Bool} {st : RequestHandlers κ n}

theorem Reachable.separate (h : st.Reachable mayThrow mayRunOut) : st.Separate :=
  h.invariant .start fun hst _ hstep => hst.step hstep

/-- A key is processed by one worker alone, whatever is thrown and whichever workers have ended: it
is in the slot of that worker and in use, and the selector thread does not hand it to another. -/
theorem process_exclusive (h : st.Reachable mayThrow mayRunOut) {i : Fin n} {key : κ}
    (hworker : st.workers i = .process key) :
    st.nextKey i = some key ∧ st.attachment key = some true ∧
      (∀ j, st.workers j = .process key → j = i) ∧ ∀ j, ¬ st.Hands j key := by
  have hst := h.separate
  have hkeeps := hst.keeps (.inl hworker)
  refine ⟨hkeeps.1, hst.inUse hkeeps, fun j hj => hst.process_unique hj hworker, fun j hhands => ?_⟩
  have hselector := hst.selector
  rcases hhands with hs | hs
  · simp only [SelectorSeparates, hs] at hselector
    exact hselector.2 i hkeeps
  · simp only [SelectorSeparates, hs] at hselector
    exact hselector.2 i hkeeps

/-- A worker has thrown and ended, and another one processes a key. -/
theorem process_exclusive_thrown :
    ∃ st : RequestHandlers Nat 2, st.workers 0 = .returned ∧ st.workers 1 = .process 8 ∧
      st.nextKey 1 = some 8 ∧ st.attachment 8 = some true ∧
      (∀ j, st.workers j = .process 8 → j = 1) ∧ ∀ j, ¬ st.Hands j 8 := by
  let events : List (Event Nat 2) :=
    [.select 7, .selector, .selector, .selector, .selector, .selector, .worker 0,
      .select 8, .selector, .selector, .selector, .selector, .selector, .selector, .worker 1,
      .finish 0 true, .worker 0, .worker 0, .worker 0]
  obtain ⟨st, hst, hended, hworker⟩ : ∃ st : RequestHandlers Nat 2,
      follow (step (fun _ => true) true) {} events = some st ∧ st.workers 0 = .returned ∧
        st.workers 1 = .process 8 := ⟨_, rfl, rfl, rfl⟩
  exact ⟨st, hended, hworker,
    process_exclusive (runs_of_follow hst fun _ _ _ => trivial) hworker⟩

end Memcarrot.RequestHandlers
