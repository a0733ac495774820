import Memcarrot.Server.RequestHandlers

open Function Transition

namespace Memcarrot

variable {κ : Type} {n : Nat}

/-- The worker has the key in its slot, or is going to take it. -/
def Worker.owns : Worker κ → Bool
  | .waitForKey | .process _ | .release _ _ => true
  | .clearNextKey _ | .clearBusy _ | .returned => false

/-- The slot and the flag busy of a worker that has thrown nothing. -/
def Worker.Accords : Worker κ → Option κ → Bool → Prop
  | .waitForKey, slot, busy => slot ≠ none → busy = true
  | .process key, slot, busy => slot = some key ∧ busy = true
  | .release key thrown, slot, busy => thrown = false ∧ slot = some key ∧ busy = true
  | .clearNextKey thrown, slot, busy => thrown = false ∧ slot ≠ none ∧ busy = true
  | .clearBusy thrown, slot, busy => thrown = false ∧ slot = none ∧ busy = true
  | .returned, _, _ => False

/-- The key in the slot that the worker has not taken. -/
def Worker.pending : Worker κ → Option κ → List κ
  | .waitForKey, slot => slot.toList
  | _, _ => []

theorem Worker.Accords.eq_waitForKey {w : Worker κ} {slot : Option κ} (h : w.Accords slot false) :
    w = .waitForKey ∧ slot = none := by
  cases w with
  | waitForKey => simpa [Worker.Accords] using h
  | _ => simp [Worker.Accords] at h

/-- A slot is occupied only while its worker is busy. -/
theorem Worker.Accords.busy_of_slot {w : Worker κ} {slot : Option κ} {busy : Bool}
    (h : w.Accords slot busy) (hslot : slot ≠ none) : busy = true := by
  cases w with
  | waitForKey => exact h hslot
  | process key => exact h.2
  | release key thrown | clearNextKey thrown => exact h.2.2
  | clearBusy thrown => exact h.2.2
  | returned => exact absurd h id

namespace RequestHandlers

/-- A worker holds a key: it is in its slot and not released. -/
def Holds (st : RequestHandlers κ n) (i : Fin n) (key : κ) : Prop :=
  st.nextKey i = some key ∧ (st.workers i).owns = true

/-- The selector thread holds a key: it is in use, but not in a slot. -/
def Hands (st : RequestHandlers κ n) (i : Fin n) (key : κ) : Prop :=
  st.selector = .setBusy key i ∨ st.selector = .compareAndSet key i

/-- What the selector thread has found, where it stands. -/
def SelectorAccords (st : RequestHandlers κ n) : Prop :=
  match st.selector with
  | .select | .inUse _ => True
  | .isBusy key _ => st.attachment key ≠ some true
  | .setInUse key i => st.attachment key ≠ some true ∧ st.busy i = false
  | .setBusy key i =>
    st.attachment key = some true ∧ st.busy i = false ∧ ∀ j, ¬ st.Holds j key
  | .compareAndSet key i =>
    st.attachment key = some true ∧ st.busy i = true ∧ st.workers i = .waitForKey ∧
      st.nextKey i = none ∧ ∀ j, ¬ st.Holds j key

/-- The invariant of the hand-off, as long as no thread ends: a key is in use exactly if one worker
holds it, or the selector thread. -/
structure Exclusive (st : RequestHandlers κ n) : Prop where
  selector : st.SelectorAccords
  workers : ∀ i, (st.workers i).Accords (st.nextKey i) (st.busy i)
  held : ∀ {i key}, st.Holds i key → st.attachment key = some true
  unique : ∀ {i j key}, st.Holds i key → st.Holds j key → i = j
  inUse : ∀ {key}, st.attachment key = some true → ∃ i, st.Hands i key ∨ st.Holds i key
  history : ∀ i, st.submitted i = st.taken i ++ (st.workers i).pending (st.nextKey i)

namespace Exclusive

theorem start : ({} : RequestHandlers κ n).Exclusive where
  selector := trivial
  workers _ h := absurd rfl h
  held h := nomatch h.1
  unique h _ := nomatch h.1
  inUse h := nomatch h
  history _ := rfl

variable {st : RequestHandlers κ n}

theorem ne_returned (h : st.Exclusive) (i : Fin n) : st.workers i ≠ .returned := by
  intro hreturned
  have haccords := h.workers i
  rw [hreturned] at haccords
  exact haccords

/-- The selector thread goes on without a change of what it shares with the workers. -/
theorem move (h : st.Exclusive) {s : SelectorThread κ n}
    (hs : SelectorAccords { st with selector := s })
    (hfree : ∀ i key, ¬ st.Hands i key) : Exclusive { st with selector := s } where
  selector := hs
  workers := h.workers
  held := h.held
  unique := h.unique
  inUse hkey := by
    obtain ⟨i, hhands | hholds⟩ := h.inUse hkey
    · exact absurd hhands (hfree i _)
    · exact ⟨i, .inr hholds⟩
  history := h.history

theorem setInUse [DecidableEq κ] (h : st.Exclusive) {key : κ} {i : Fin n}
    (hs : st.selector = .setInUse key i) :
    Exclusive { st with
      attachment := update st.attachment key (some true), selector := .setBusy key i } := by
  have hselector := h.selector
  simp only [SelectorAccords, hs] at hselector
  obtain ⟨hfree, hbusy⟩ := hselector
  have hnone (j : Fin n) : ¬ st.Holds j key := fun hholds => hfree (h.held hholds)
  refine ⟨⟨update_self .., hbusy, hnone⟩, h.workers, ?_, h.unique, ?_, h.history⟩
  · intro j key' hholds
    have hne : key' ≠ key := by
      rintro rfl
      exact hnone j hholds
    simp only [update_of_ne hne]
    exact h.held hholds
  · intro key' hkey'
    by_cases heq : key' = key
    · subst heq
      exact ⟨i, .inl (.inl rfl)⟩
    · simp only [update_of_ne heq] at hkey'
      obtain ⟨j, hhands | hholds⟩ := h.inUse hkey'
      · simp [Hands, hs] at hhands
      · exact ⟨j, .inr hholds⟩

theorem setBusy (h : st.Exclusive) {key : κ} {i : Fin n} (hs : st.selector = .setBusy key i) :
    Exclusive { st with busy := update st.busy i true, selector := .compareAndSet key i } := by
  have hselector := h.selector
  simp only [SelectorAccords, hs] at hselector
  obtain ⟨hinUse, hbusy, hnone⟩ := hselector
  have hworker := h.workers i
  rw [hbusy] at hworker
  obtain ⟨hwaits, hslot⟩ := hworker.eq_waitForKey
  refine ⟨⟨hinUse, update_self .., hwaits, hslot, hnone⟩, ?_, h.held, h.unique, ?_, h.history⟩
  · intro j
    by_cases hj : j = i
    · subst hj
      simp only [update_self, hwaits]
      exact fun _ => rfl
    · simp only [update_of_ne hj]
      exact h.workers j
  · intro key' hkey'
    obtain ⟨j, hhands | hholds⟩ := h.inUse hkey'
    · simp only [Hands, hs, SelectorThread.setBusy.injEq, reduceCtorEq, or_false] at hhands
      obtain ⟨rfl, rfl⟩ := hhands
      exact ⟨i, .inl (.inr rfl)⟩
    · exact ⟨j, .inr hholds⟩

theorem compareAndSet (h : st.Exclusive) {key : κ} {i : Fin n}
    (hs : st.selector = .compareAndSet key i) :
    Exclusive { st with
      nextKey := update st.nextKey i (some key)
      submitted := update st.submitted i (st.submitted i ++ [key])
      selector := .select } := by
  have hselector := h.selector
  simp only [SelectorAccords, hs] at hselector
  obtain ⟨hinUse, hbusy, hwaits, hslot, hnone⟩ := hselector
  let st' : RequestHandlers κ n := { st with
    nextKey := update st.nextKey i (some key)
    submitted := update st.submitted i (st.submitted i ++ [key])
    selector := .select }
  have hholds {j : Fin n} {key' : κ} (hj : st'.Holds j key') :
      (j = i ∧ key' = key) ∨ (j ≠ i ∧ st.Holds j key') := by
    obtain ⟨hkey', howns⟩ := hj
    by_cases hji : j = i
    · subst hji
      simp only [st', update_self, Option.some.injEq] at hkey'
      exact .inl ⟨rfl, hkey'.symm⟩
    · simp only [st', update_of_ne hji] at hkey'
      exact .inr ⟨hji, hkey', howns⟩
  change st'.Exclusive
  refine ⟨trivial, ?_, ?_, ?_, ?_, ?_⟩
  · intro j
    by_cases hj : j = i
    · subst hj
      simp only [st', update_self, hwaits]
      exact fun _ => hbusy
    · simp only [st', update_of_ne hj]
      exact h.workers j
  · intro j key' hj
    rcases hholds hj with ⟨rfl, rfl⟩ | ⟨-, hbefore⟩
    · exact hinUse
    · exact h.held hbefore
  · intro j k key' hj hk
    rcases hholds hj with ⟨rfl, rfl⟩ | ⟨-, hj'⟩
    · rcases hholds hk with ⟨rfl, -⟩ | ⟨-, hk'⟩
      · rfl
      · exact absurd hk' (hnone k)
    · rcases hholds hk with ⟨rfl, rfl⟩ | ⟨-, hk'⟩
      · exact absurd hj' (hnone j)
      · exact h.unique hj' hk'
  · intro key' hkey'
    obtain ⟨j, hhands | hj⟩ := h.inUse hkey'
    · simp only [Hands, hs, SelectorThread.compareAndSet.injEq, reduceCtorEq, false_or] at hhands
      obtain ⟨rfl, rfl⟩ := hhands
      exact ⟨i, .inr ⟨update_self .., by simp [st', hwaits, Worker.owns]⟩⟩
    · have hji : j ≠ i := by
        rintro rfl
        rw [hj.1] at hslot
        cases hslot
      refine ⟨j, .inr ⟨?_, hj.2⟩⟩
      simp only [st', update_of_ne hji]
      exact hj.1
  · intro j
    by_cases hj : j = i
    · subst hj
      have hhistory := h.history j
      simp only [hwaits, hslot, Worker.pending, Option.toList_none, List.append_nil] at hhistory
      simp only [st', update_self, hwaits, Worker.pending, Option.toList_some, hhistory]
    · simp only [st', update_of_ne hj]
      exact h.history j

/-- The selector thread preserves the invariant with each of its actions. -/
theorem selectorStep [DecidableEq κ] (h : st.Exclusive) : st.selectorStep.Exclusive := by
  unfold RequestHandlers.selectorStep
  cases hs : st.selector with
  | select => exact h
  | inUse key =>
    have hfree (i : Fin n) (key : κ) : ¬ st.Hands i key := by simp [Hands, hs]
    simp only
    split
    case isTrue => exact h.move trivial hfree
    case isFalse hne => exact h.move hne hfree
  | isBusy key i =>
    have hfree (i : Fin n) (key : κ) : ¬ st.Hands i key := by simp [Hands, hs]
    have hselector := h.selector
    simp only [SelectorAccords, hs] at hselector
    simp only
    split
    case isTrue hi =>
      split
      case isTrue => exact h.move hselector hfree
      case isFalse hbusy => exact h.move ⟨hselector, eq_false_of_ne_true hbusy⟩ hfree
    case isFalse => exact h.move hselector hfree
  | setInUse key i => exact h.setInUse hs
  | setBusy key i => exact h.setBusy hs
  | compareAndSet key i =>
    have hselector := h.selector
    simp only [SelectorAccords, hs] at hselector
    simp only [hselector.2.2.2.1, if_true]
    exact h.compareAndSet hs

/-- The variables of worker `i` after one of its actions. -/
def act (st : RequestHandlers κ n) (i : Fin n) (w : Worker κ) (slot : Option κ) (busy : Bool)
    (taken : List κ) : RequestHandlers κ n :=
  { st with
    workers := update st.workers i w
    nextKey := update st.nextKey i slot
    busy := update st.busy i busy
    taken := update st.taken i taken }

section Actions

variable {i : Fin n} {w : Worker κ} {slot : Option κ} {busy : Bool} {taken : List κ}

/-- The selector thread does not wait for the slot of a busy worker. -/
theorem selectorAccords_act (h : st.Exclusive) (hbusy : st.busy i = true)
    (hslot : st.workers i = .waitForKey → st.nextKey i ≠ none) {attachment : κ → Option Bool}
    (hfree : ∀ key, st.attachment key ≠ some true → attachment key ≠ some true)
    (hkept : ∀ key j, st.Hands j key → attachment key = some true)
    (hholds : ∀ j key, Holds { act st i w slot busy taken with attachment } j key →
      st.Holds j key) :
    SelectorAccords { act st i w slot busy taken with attachment } := by
  have hselector := h.selector
  unfold SelectorAccords at hselector ⊢
  simp only [act] at hholds ⊢
  cases hs : st.selector with
  | select | inUse key => trivial
  | isBusy key k =>
    simp only [hs] at hselector
    exact hfree key hselector
  | setInUse key k =>
    simp only [hs] at hselector
    have hk : k ≠ i := by
      rintro rfl
      exact absurd hbusy (by simp [hselector.2])
    simp only [update_of_ne hk]
    exact ⟨hfree key hselector.1, hselector.2⟩
  | setBusy key k =>
    simp only [hs] at hselector hholds
    obtain ⟨-, hidle, hnone⟩ := hselector
    have hk : k ≠ i := by
      rintro rfl
      exact absurd hbusy (by simp [hidle])
    simp only [update_of_ne hk]
    exact ⟨hkept key k (.inl hs), hidle, fun j hj => hnone j (hholds j key hj)⟩
  | compareAndSet key k =>
    simp only [hs] at hselector hholds
    obtain ⟨-, hmarked, hwaits, hempty, hnone⟩ := hselector
    have hk : k ≠ i := by
      rintro rfl
      exact hslot hwaits hempty
    simp only [update_of_ne hk]
    exact ⟨hkept key k (.inr hs), hmarked, hwaits, hempty, fun j hj => hnone j (hholds j key hj)⟩

theorem workers_act (h : st.Exclusive) (taken : List κ) (hw : w.Accords slot busy) (j : Fin n) :
    ((act st i w slot busy taken).workers j).Accords ((act st i w slot busy taken).nextKey j)
      ((act st i w slot busy taken).busy j) := by
  simp only [act]
  by_cases hj : j = i
  · subst hj
    simpa only [update_self] using hw
  · simpa only [update_of_ne hj] using h.workers j

theorem history_act (h : st.Exclusive) (busy : Bool)
    (hhistory : st.submitted i = taken ++ w.pending slot) (j : Fin n) :
    (act st i w slot busy taken).submitted j = (act st i w slot busy taken).taken j ++
      ((act st i w slot busy taken).workers j).pending
        ((act st i w slot busy taken).nextKey j) := by
  simp only [act]
  by_cases hj : j = i
  · subst hj
    simpa only [update_self] using hhistory
  · simpa only [update_of_ne hj] using h.history j

/-- A worker goes on with the key that it holds, or without one. -/
theorem goOn (h : st.Exclusive) (i : Fin n) (w : Worker κ) (slot : Option κ) (busy : Bool)
    (taken : List κ) (hbusy : st.busy i = true)
    (hslot : st.workers i = .waitForKey → st.nextKey i ≠ none) (hw : w.Accords slot busy)
    (hkey : ∀ key, slot = some key ∧ w.owns = true ↔ st.Holds i key)
    (hhistory : st.submitted i = taken ++ w.pending slot) :
    Exclusive (act st i w slot busy taken) := by
  have hholds (j : Fin n) (key : κ) :
      (act st i w slot busy taken).Holds j key ↔ st.Holds j key := by
    by_cases hj : j = i
    · subst hj
      simpa only [Holds, act, update_self] using hkey key
    · simp only [Holds, act, update_of_ne hj]
  refine ⟨?_, h.workers_act taken hw, fun hj => h.held ((hholds ..).mp hj),
    fun hj hk => h.unique ((hholds ..).mp hj) ((hholds ..).mp hk), ?_, h.history_act busy hhistory⟩
  · refine h.selectorAccords_act hbusy hslot (fun _ hfree => hfree) ?_
      fun j key => (hholds j key).mp
    intro key j hj
    have hselector := h.selector
    rcases hj with hs | hs <;> simp only [SelectorAccords, hs] at hselector <;> exact hselector.1
  · intro key hinUse
    obtain ⟨j, hhands | hj⟩ := h.inUse hinUse
    · exact ⟨j, .inl hhands⟩
    · exact ⟨j, .inr ((hholds ..).mpr hj)⟩

end Actions

theorem attachment_of_hands (h : st.Exclusive) {i : Fin n} {key : κ} (hhands : st.Hands i key) :
    st.attachment key = some true ∧ ∀ j, ¬ st.Holds j key := by
  have hselector := h.selector
  rcases hhands with hs | hs
  · simp only [SelectorAccords, hs] at hselector
    exact ⟨hselector.1, hselector.2.2⟩
  · simp only [SelectorAccords, hs] at hselector
    exact ⟨hselector.1, hselector.2.2.2.2⟩

/-- A worker releases the key that it holds. -/
theorem release [DecidableEq κ] (h : st.Exclusive) {i : Fin n} {key : κ}
    (hworker : st.workers i = .release key false) :
    Exclusive { st with
      attachment := update st.attachment key (some false)
      workers := update st.workers i (.clearNextKey false) } := by
  have haccords := h.workers i
  rw [hworker] at haccords
  obtain ⟨-, hslot, hbusy⟩ := haccords
  have hkey : st.Holds i key := ⟨hslot, by rw [hworker]; rfl⟩
  let st' : RequestHandlers κ n := { st with
    attachment := update st.attachment key (some false)
    workers := update st.workers i (.clearNextKey false) }
  have hact : st' = { act st i (.clearNextKey false) (st.nextKey i) (st.busy i) (st.taken i) with
      attachment := update st.attachment key (some false) } := by
    simp only [st', act, update_eq_self]
  have hholds (j : Fin n) (key' : κ) : st'.Holds j key' ↔ j ≠ i ∧ st.Holds j key' := by
    by_cases hj : j = i
    · subst hj
      simp [Holds, st', Worker.owns]
    · simp only [Holds, st', update_of_ne hj, ne_eq, hj, not_false_eq_true, true_and]
  have hne {j : Fin n} {key' : κ} (hj : st'.Holds j key') : key' ≠ key := by
    rintro rfl
    obtain ⟨hji, hj⟩ := (hholds j key').mp hj
    exact hji (h.unique hj hkey)
  change st'.Exclusive
  refine ⟨?_, ?_, ?_, ?_, ?_, ?_⟩
  · rw [hact] at hholds ⊢
    refine h.selectorAccords_act hbusy (by simp [hworker]) ?_ ?_ fun j key' hj =>
      ((hholds j key').mp hj).2
    · intro key' hfree
      by_cases heq : key' = key
      · subst heq
        simp only [update_self]
        exact nofun
      · simpa only [update_of_ne heq] using hfree
    · intro key' j hhands
      obtain ⟨hinUse, hnone⟩ := h.attachment_of_hands hhands
      have heq : key' ≠ key := by
        rintro rfl
        exact hnone i hkey
      simpa only [update_of_ne heq] using hinUse
  · rw [hact]
    have haccords' : (Worker.clearNextKey false).Accords (st.nextKey i) (st.busy i) :=
      ⟨rfl, by simp [hslot], hbusy⟩
    exact h.workers_act (st.taken i) haccords'
  · intro j key' hj
    simp only [st', update_of_ne (hne hj)]
    exact h.held ((hholds j key').mp hj).2
  · intro j k key' hj hk
    exact h.unique ((hholds j key').mp hj).2 ((hholds k key').mp hk).2
  · intro key' hinUse
    have heq : key' ≠ key := by
      rintro rfl
      simp [st'] at hinUse
    simp only [st', update_of_ne heq] at hinUse
    obtain ⟨j, hhands | hj⟩ := h.inUse hinUse
    · exact ⟨j, .inl hhands⟩
    · refine ⟨j, .inr ((hholds j key').mpr ⟨?_, hj⟩)⟩
      rintro rfl
      exact heq (Option.some.inj (hj.1.symm.trans hslot))
  · have hhistory := h.history i
    simp only [hworker, Worker.pending] at hhistory
    rw [hact]
    exact h.history_act (st.busy i) hhistory

/-- A worker preserves the invariant with each of its actions. -/
theorem workerStep [DecidableEq κ] (h : st.Exclusive) (i : Fin n) :
    (st.workerStep i).Exclusive := by
  have haccords := h.workers i
  have hhistory := h.history i
  unfold RequestHandlers.workerStep
  cases hworker : st.workers i with
  | waitForKey =>
    cases hslot : st.nextKey i with
    | none => exact h
    | some key =>
      rw [hworker, hslot] at haccords hhistory
      have hbusy : st.busy i = true := haccords (by simp)
      have htake := h.goOn i (.process key) (st.nextKey i) (st.busy i) (st.taken i ++ [key]) hbusy
        (by simp [hslot]) ⟨hslot, hbusy⟩ (fun key' => by simp [Holds, hworker, Worker.owns])
        (by simpa [Worker.pending] using hhistory)
      simpa only [act, update_eq_self] using htake
  | process key => exact h
  | release key thrown =>
    rw [hworker] at haccords
    obtain ⟨rfl, hslot, -⟩ := haccords
    have hinUse := h.held (i := i) ⟨hslot, by rw [hworker]; rfl⟩
    simp only [hinUse, reduceCtorEq, if_false]
    exact h.release hworker
  | clearNextKey thrown =>
    rw [hworker] at haccords hhistory
    obtain ⟨rfl, -, hbusy⟩ := haccords
    have hclear := h.goOn i (.clearBusy false) none (st.busy i) (st.taken i) hbusy
      (by simp [hworker]) ⟨rfl, rfl, hbusy⟩
      (fun key' => by simp [Holds, hworker, Worker.owns]) hhistory
    simpa only [act, update_eq_self] using hclear
  | clearBusy thrown =>
    rw [hworker] at haccords hhistory
    obtain ⟨rfl, hslot, hbusy⟩ := haccords
    have hclear := h.goOn i .waitForKey (st.nextKey i) false (st.taken i) hbusy
      (by simp [hworker]) (fun hne => absurd hslot hne)
      (fun key' => by simp [Holds, hworker, hslot, Worker.owns])
      (by simpa [Worker.pending, hslot] using hhistory)
    simp only [Bool.false_eq_true, if_false]
    simpa only [act, update_eq_self] using hclear
  | returned => exact absurd hworker (h.ne_returned i)

theorem finish (h : st.Exclusive) {i : Fin n} {key : κ} (hworker : st.workers i = .process key) :
    Exclusive { st with workers := update st.workers i (.release key false) } := by
  have haccords := h.workers i
  have hhistory := h.history i
  rw [hworker] at haccords hhistory
  obtain ⟨hslot, hbusy⟩ := haccords
  have hfinish := h.goOn i (.release key false) (st.nextKey i) (st.busy i) (st.taken i) hbusy
    (by simp [hworker]) ⟨rfl, hslot, hbusy⟩
    (fun key' => by simp [Holds, hworker, Worker.owns]) hhistory
  simpa only [act, update_eq_self] using hfinish

/-- Every step preserves the invariant, as long as no worker ends. -/
theorem step [DecidableEq κ] (h : st.Exclusive) {mayThrow : κ → Bool} {mayRunOut : Bool}
    {e : Event κ n} (hends : e.ends = false) {st' : RequestHandlers κ n}
    (hstep : st.step mayThrow mayRunOut e = some st') : st'.Exclusive := by
  unfold RequestHandlers.step at hstep
  cases e with
  | select key =>
    cases hs : st.selector with
    | select =>
      simp only [hs, Option.some.injEq] at hstep
      rw [← hstep]
      exact h.move trivial (by simp [Hands, hs])
    | _ => simp [hs] at hstep
  | selector =>
    simp only [Option.some.injEq] at hstep
    rw [← hstep]
    exact h.selectorStep
  | worker i =>
    simp only [Option.some.injEq] at hstep
    rw [← hstep]
    exact h.workerStep i
  | finish i thrown =>
    cases hworker : st.workers i with
    | process key =>
      obtain rfl : thrown = false := hends
      simp only [hworker, Bool.false_eq_true, false_and, if_false, Option.some.injEq] at hstep
      rw [← hstep]
      exact h.finish hworker
    | _ => simp [hworker] at hstep
  | outOfMemory i => cases hends

end Exclusive

/-- In every state that is reached without an end of a worker, the invariant of the hand-off
holds. -/
theorem exclusive_of_runs [DecidableEq κ] {mayThrow : κ → Bool} {mayRunOut : Bool}
    {st : RequestHandlers κ n}
    (h : Runs (step mayThrow mayRunOut) (fun _ e => e.ends = false) {} st) : st.Exclusive :=
  h.invariant .start fun hst hends hstep => hst.step hends hstep

/-- The worker whose buffers are not allocated waits with a key in its slot. -/
theorem outOfMemory_eq_some {st st' : RequestHandlers κ n} {i : Fin n}
    (h : st.outOfMemory i = some st') :
    ∃ key, st.workers i = .waitForKey ∧ st.nextKey i = some key ∧ st.taken i = [] ∧
      st' = { st with
        workers := update st.workers i .returned, taken := update st.taken i [key] } := by
  unfold outOfMemory at h
  split at h
  case h_1 key hworker hslot htaken =>
    simp only [Option.some.injEq] at h
    exact ⟨key, hworker, hslot, htaken, h.symm⟩
  case h_2 => cases h

/-- Where processing never throws and the memory never runs out, no step ends a worker. -/
theorem ends_eq_false_of_step [DecidableEq κ] {mayThrow : κ → Bool} {mayRunOut : Bool}
    {st st' : RequestHandlers κ n}
    (hnever : Fin n → ∀ key, mayThrow key = false ∧ mayRunOut = false) {e : Event κ n}
    (hstep : st.step mayThrow mayRunOut e = some st') : e.ends = false := by
  cases e with
  | finish i thrown =>
    cases hworker : st.workers i with
    | process key =>
      simp only [RequestHandlers.step, hworker, (hnever i key).1, and_true,
        Option.ite_none_left_eq_some] at hstep
      exact eq_false_of_ne_true hstep.1
    | _ => simp [RequestHandlers.step, hworker] at hstep
  | outOfMemory i =>
    simp only [RequestHandlers.step, Option.ite_none_right_eq_some] at hstep
    obtain ⟨hmemory, hstep⟩ := hstep
    obtain ⟨key, -⟩ := outOfMemory_eq_some hstep
    rw [(hnever i key).2] at hmemory
    cases hmemory
  | _ => rfl

theorem Reachable.exclusive [DecidableEq κ] {mayThrow : κ → Bool} {mayRunOut : Bool}
    {st : RequestHandlers κ n} (h : st.Reachable mayThrow mayRunOut)
    (hnever : Fin n → ∀ key, mayThrow key = false ∧ mayRunOut = false) : st.Exclusive :=
  h.invariant .start fun hst _ hstep => hst.step (ends_eq_false_of_step hnever hstep) hstep

/-- Selection keys are handed over exclusively and without loss: a key is processed by one worker,
its slot is empty when the selector thread sets it and occupied only while the worker is busy, and
what was put into a slot is taken once, or still there. -/
theorem handoff_exclusive [DecidableEq κ] {st : RequestHandlers κ n}
    (h : st.Reachable (fun _ => false) false) :
    (∀ i j key, st.workers i = .process key → st.workers j = .process key → i = j) ∧
    (∀ key i, st.selector = .compareAndSet key i → st.nextKey i = none) ∧
    (∀ i, st.nextKey i ≠ none → st.busy i = true) ∧
    ∀ i, st.submitted i = st.taken i ∨ ∃ key,
      st.submitted i = st.taken i ++ [key] ∧ st.nextKey i = some key ∧
        st.workers i = .waitForKey := by
  have hst := h.exclusive fun _ _ => ⟨rfl, rfl⟩
  have haccords := hst.workers
  refine ⟨?_, ?_, ?_, ?_⟩
  · intro i j key hi hj
    have hslot := haccords i
    have hslot' := haccords j
    rw [hi] at hslot
    rw [hj] at hslot'
    exact hst.unique ⟨hslot.1, by rw [hi]; rfl⟩ ⟨hslot'.1, by rw [hj]; rfl⟩
  · intro key i hs
    have hselector := hst.selector
    simp only [SelectorAccords, hs] at hselector
    exact hselector.2.2.2.1
  · exact fun i hslot => (haccords i).busy_of_slot hslot
  · intro i
    have hhistory := hst.history i
    cases hworker : st.workers i with
    | waitForKey =>
      cases hslot : st.nextKey i with
      | none => exact .inl (by simpa [hworker, hslot, Worker.pending] using hhistory)
      | some key =>
        exact .inr ⟨key, by simpa [hworker, hslot, Worker.pending] using hhistory, rfl, rfl⟩
    | _ => exact .inl (by simpa [hworker, Worker.pending] using hhistory)

theorem handoff_exclusive_two_workers :
    ∃ st : RequestHandlers Nat 2, st.workers 0 = .process 7 ∧ st.nextKey 1 = some 8 ∧
      (∀ i j key, st.workers i = .process key → st.workers j = .process key → i = j) ∧
      (∀ key i, st.selector = .compareAndSet key i → st.nextKey i = none) ∧
      (∀ i, st.nextKey i ≠ none → st.busy i = true) ∧
      ∀ i, st.submitted i = st.taken i ∨ ∃ key,
        st.submitted i = st.taken i ++ [key] ∧ st.nextKey i = some key ∧
          st.workers i = .waitForKey := by
  let events : List (Event Nat 2) :=
    [.select 7, .selector, .selector, .selector, .selector, .selector, .worker 0,
      .select 8, .selector, .selector, .selector, .selector, .selector, .selector]
  obtain ⟨st, hst, hfirst, hsecond⟩ : ∃ st : RequestHandlers Nat 2,
      follow (step (fun _ => false) false) {} events = some st ∧ st.workers 0 = .process 7 ∧
        st.nextKey 1 = some 8 := ⟨_, rfl, rfl, rfl⟩
  exact ⟨st, hfirst, hsecond, handoff_exclusive (runs_of_follow hst fun _ _ _ => trivial)⟩

end RequestHandlers

end Memcarrot
