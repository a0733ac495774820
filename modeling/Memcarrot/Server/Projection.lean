import Memcarrot.Server.MemcarrotServer
import Memcarrot.Server.Separation

open Function Interaction RawMemory Relation Transition

namespace Memcarrot

variable {κ σ : Type} {n : Nat}

/-- The channel is read, or fails. -/
def WorkThread.Event.OnChannel : WorkThread.Event → Prop
  | .read _ | .readNothing | .hangUp => True
  | .activate .. | .advance => False

/-- What happens to one connection, with the calls of the store that were made for it: a worker
takes its key, the channel is read, the worker goes on, or a call finds the store in some state.
That a worker takes the key although the processing has thrown before is allowed or not. -/
inductive Task.Step (services : Services σ) (bufferSize : Nat) (revives : Prop) :
    Task σ × List (σ × σ) → Task σ × List (σ × σ) → Prop where
  | activate {thread : WorkThread σ} {calls : List (σ × σ)} (memory : Memory) {inPtr : Int}
      (hptr : 0 < inPtr)
      (hphase : thread.phase = .waiting ∨ thread.phase = .closed ∨ thread.phase = .dead ∧ revives) :
      Step services bufferSize revives ({ thread }, calls)
        (Task.activate thread memory inPtr, calls)
  | channel {thread thread' : WorkThread σ} {calls : List (σ × σ)} {e : WorkThread.Event}
      (he : e.OnChannel) (hstep : thread.step services bufferSize e = some thread') :
      Step services bufferSize revives ({ thread }, calls) ({ thread := thread' }, calls)
  | advance {t : Task σ} {calls : List (σ × σ)}
      (hbetween : ∀ cmd op c next, t.running ≠ some ⟨cmd, op, .call c next⟩) :
      Step services bufferSize revives (t, calls) (t.advance services bufferSize, calls)
  | call {thread : WorkThread σ} {calls : List (σ × σ)} {cmd : MemcachedCommand} {op : Operation}
      {c : StoreCall} {next : c.Answer → StoreProgram Answered} (s : σ) :
      Step services bufferSize revives ({ thread, running := some ⟨cmd, op, .call c next⟩ }, calls)
        ({ thread, running := some ⟨cmd, op, next (services.support.object c s).1⟩ },
          calls ++ [(s, (services.support.object c s).2)])

theorem Task.Step.mono {services : Services σ} {bufferSize : Nat} {revives revives' : Prop}
    {l l' : Task σ × List (σ × σ)} (h : Task.Step services bufferSize revives l l')
    (himp : revives → revives') : Task.Step services bufferSize revives' l l' := by
  cases h with
  | activate memory hptr hphase =>
    exact .activate memory hptr (hphase.imp_right fun h => h.imp_right fun h => ⟨h.1, himp h.2⟩)
  | channel he hstep => exact .channel he hstep
  | advance hbetween => exact .advance hbetween
  | call s => exact .call s

namespace MemcarrotServer

/-- Where a connection stands: with the worker that processes its key, or as the last one has left
it. -/
inductive Shows (st : MemcarrotServer κ σ n) (key : κ) : Task σ → Prop where
  | worker {i : Fin n} (h : st.handlers.workers i = .process key) : Shows st key (st.tasks i)
  | released (h : ∀ i, st.handlers.workers i ≠ .process key) :
      Shows st key { thread := st.connections key }

variable [DecidableEq κ]

/-- The task of a connection. -/
def task (st : MemcarrotServer κ σ n) (key : κ) : Task σ :=
  match (List.finRange n).find? fun i => st.handlers.workers i = .process key with
  | some i => st.tasks i
  | none => { thread := st.connections key }

variable {services : Services σ} {bufferSize : Nat} {s : σ}
  {before : κ → Task σ × List (σ × σ)} {st st' : MemcarrotServer κ σ n}

/-- Each connection goes its own way from where it stood: nothing but its own key, its own channel
and the states in which its calls find the store has an influence on it, and the calls of all
connections are one history of the store. -/
structure Projects (services : Services σ) (bufferSize : Nat) (s : σ)
    (before : κ → Task σ × List (σ × σ)) (st : MemcarrotServer κ σ n) : Prop where
  separate : st.handlers.Separate
  linear : Linear s st.calls st.store
  runs : ∀ {key t}, st.Shows key t →
    ReflTransGen (Task.Step services bufferSize (key ∈ st.thrown)) (before key)
      (t, callsOf key st.calls)
  left : ∀ {key}, (∀ i, st.handlers.workers i ≠ .process key) →
    (st.connections key).phase = .waiting ∨ (st.connections key).phase = .closed ∨
      (st.connections key).phase = .dead ∧ key ∈ st.thrown

namespace Projects

theorem start (s : σ) : (start s : MemcarrotServer κ σ n).Projects services bufferSize s
    fun _ => ({ thread := { store := s } }, []) where
  separate := .start
  linear := rfl
  runs hshows := by
    cases hshows with
    | worker => exact .refl
    | released => exact .refl
  left _ := .inl rfl

/-- The selector thread and the workers outside of the processing change no connection. -/
theorem handlers (h : st.Projects services bufferSize s before) {handlers : RequestHandlers κ n}
    (hseparate : handlers.Separate)
    (hsame : ∀ i key, handlers.workers i = .process key ↔ st.handlers.workers i = .process key) :
    Projects services bufferSize s before { st with handlers } := by
  have hreleased {key : κ} (hnone : ∀ i, handlers.workers i ≠ .process key) (i : Fin n) :
      st.handlers.workers i ≠ .process key := fun hworker => hnone i ((hsame i key).mpr hworker)
  refine ⟨hseparate, h.linear, fun {key t} hshows => ?_, fun hnone => h.left (hreleased hnone)⟩
  cases hshows with
  | worker hworker => exact h.runs (.worker ((hsame _ key).mp hworker))
  | released hnone => exact h.runs (.released (hreleased hnone))

/-- A worker goes on with the connection that it processes. -/
theorem task (h : st.Projects services bufferSize s before) {i : Fin n} {key : κ}
    (hworker : st.handlers.workers i = .process key) {t : Task σ} {calls : List (κ × σ × σ)}
    {store : σ}
    (hstep : Task.Step services bufferSize (key ∈ st.thrown) (st.tasks i, callsOf key st.calls)
      (t, callsOf key calls))
    (hothers : ∀ other, other ≠ key → callsOf other calls = callsOf other st.calls)
    (hlinear : Linear s calls store) :
    Projects services bufferSize s before { st.setTask i t with store, calls } := by
  refine ⟨h.separate, hlinear, fun {other t'} hshows => ?_, h.left⟩
  have hnot (hnone : ∀ j, st.handlers.workers j ≠ .process other) : other ≠ key := by
    rintro rfl
    exact hnone i hworker
  generalize hnext : ({ st.setTask i t with store, calls } : MemcarrotServer κ σ n) = next at hshows
  cases hshows with
  | @worker j hj =>
    subst hnext
    have hj : st.handlers.workers j = .process other := hj
    by_cases heq : j = i
    · subst heq
      obtain rfl : other = key := Worker.process.inj (hj.symm.trans hworker)
      simp only [setTask, update_self]
      exact (h.runs (.worker hworker)).tail hstep
    · have hne : other ≠ key := by
        rintro rfl
        exact heq (h.separate.process_unique hj hworker)
      simp only [setTask, update_of_ne heq, hothers other hne]
      exact h.runs (.worker hj)
  | released hnone =>
    subst hnext
    have hnone : ∀ j, st.handlers.workers j ≠ .process other := hnone
    simp only [hothers other (hnot hnone)]
    exact h.runs (.released hnone)

/-- A worker takes a key. -/
theorem take (h : st.Projects services bufferSize s before) {i : Fin n} {key : κ}
    (hworker : st.handlers.workers i = .waitForKey) (hslot : st.handlers.nextKey i = some key)
    (memory : Memory) {inPtr : Int} (hptr : 0 < inPtr) :
    Projects services bufferSize s before
      (setTask { st with handlers := st.handlers.workerStep i } i
        (.activate (st.connections key) memory inPtr)) := by
  have hseparate := h.separate.workerStep i
  have hworkers : (st.handlers.workerStep i).workers =
      update st.handlers.workers i (.process key) := by
    simp only [RequestHandlers.workerStep, hworker, hslot]
  have htaken : (st.handlers.workerStep i).workers i = .process key := by
    rw [hworkers, update_self]
  have hbefore {j : Fin n} (hj : j ≠ i) :
      (st.handlers.workerStep i).workers j = st.handlers.workers j := by
    rw [hworkers, update_of_ne hj]
  have hnone (j : Fin n) : st.handlers.workers j ≠ .process key := by
    intro hj
    have hne : j ≠ i := by
      rintro rfl
      rw [hworker] at hj
      cases hj
    exact hne (hseparate.process_unique ((hbefore hne).trans hj) htaken)
  have hreleased {other : κ}
      (hother : ∀ j, (st.handlers.workerStep i).workers j ≠ .process other) (j : Fin n) :
      st.handlers.workers j ≠ .process other := by
    by_cases hj : j = i
    · subst hj
      rw [hworker]
      exact nofun
    · rw [← hbefore hj]
      exact hother j
  refine ⟨hseparate, h.linear, fun {other t} hshows => ?_, fun hother => h.left (hreleased hother)⟩
  generalize hnext : setTask { st with handlers := st.handlers.workerStep i } i
    (.activate (st.connections key) memory inPtr) = next at hshows
  cases hshows with
  | @worker j hj =>
    subst hnext
    by_cases heq : j = i
    · subst heq
      obtain rfl : other = key := Worker.process.inj (Eq.trans (Eq.symm hj) htaken)
      simp only [setTask, update_self]
      exact (h.runs (.released hnone)).tail (.activate memory hptr (h.left hnone))
    · simp only [setTask, update_of_ne heq]
      exact h.runs (.worker ((hbefore heq).symm.trans hj))
  | released hother =>
    subst hnext
    exact h.runs (.released (hreleased hother))

/-- The processing of a key ends. -/
theorem finish (h : st.Projects services bufferSize s before) {i : Fin n} {key : κ}
    (hworker : st.handlers.workers i = .process key) (hfinishes : (st.tasks i).Finishes)
    {thrown : Bool} {kept : List κ} (hthrown : thrown = true ↔ (st.tasks i).thread.phase = .dead)
    (hkept : kept = if thrown then st.thrown ++ [key] else st.thrown) :
    Projects services bufferSize s before { st with
      handlers := { st.handlers with
        workers := update st.handlers.workers i (.release key thrown) }
      connections := update st.connections key (st.tasks i).thread
      thrown := kept } := by
  obtain ⟨hrunning, hphase⟩ := hfinishes
  have htask : st.tasks i = { thread := (st.tasks i).thread } := by
    rw [Option.isNone_iff_eq_none] at hrunning
    rw [← hrunning]
  have hmore {other : κ} (hother : other ∈ st.thrown) : other ∈ kept := by
    rw [hkept]
    split
    · exact List.mem_append_left _ hother
    · exact hother
  have hbefore {j : Fin n} (hj : j ≠ i) :
      update st.handlers.workers i (.release key thrown) j = st.handlers.workers j :=
    update_of_ne hj ..
  have hreleased {other : κ} (hne : other ≠ key)
      (hother : ∀ j, update st.handlers.workers i (.release key thrown) j ≠ .process other)
      (j : Fin n) : st.handlers.workers j ≠ .process other := by
    by_cases hj : j = i
    · subst hj
      rw [hworker]
      exact fun heq => hne (Worker.process.inj heq).symm
    · rw [← hbefore hj]
      exact hother j
  have hkeep {other : κ} {t : Task σ} (hshows : st.Shows other t) :
      ReflTransGen (Task.Step services bufferSize (other ∈ kept)) (before other)
        (t, callsOf other st.calls) := by
    have hsteps : Task.Step services bufferSize (other ∈ st.thrown) ≤
        Task.Step services bufferSize (other ∈ kept) := fun _ _ hstep => Task.Step.mono hstep hmore
    exact ReflTransGen.mono hsteps _ _ (h.runs hshows)
  refine ⟨h.separate.finish hworker thrown, h.linear, fun {other t} hshows => ?_,
    fun {other} hother => ?_⟩
  · generalize hnext : ({ st with
      handlers := { st.handlers with
        workers := update st.handlers.workers i (.release key thrown) }
      connections := update st.connections key (st.tasks i).thread
      thrown := kept } : MemcarrotServer κ σ n) = next at hshows
    cases hshows with
    | @worker j hj =>
      subst hnext
      have hj : update st.handlers.workers i (.release key thrown) j = .process other := hj
      have heq : j ≠ i := by
        rintro rfl
        simp at hj
      exact hkeep (.worker ((hbefore heq).symm.trans hj))
    | released hother =>
      subst hnext
      by_cases hne : other = key
      · subst hne
        simp only [update_self]
        rw [← htask]
        exact hkeep (.worker hworker)
      · simp only [update_of_ne hne]
        exact hkeep (.released (hreleased hne hother))
  · by_cases hne : other = key
    · subst hne
      simp only [update_self]
      rcases hphase with hwaits | hclosed | hdead
      · exact .inl hwaits
      · exact .inr (.inl hclosed)
      · refine .inr (.inr ⟨hdead, ?_⟩)
        rw [hkept, if_pos (hthrown.mpr hdead)]
        simp
    · simp only [update_of_ne hne]
      exact (h.left (hreleased hne hother)).imp_right fun h => h.imp_right fun h =>
        ⟨h.1, hmore h.2⟩

theorem workers_selectorStep (handlers : RequestHandlers κ n) :
    handlers.selectorStep.workers = handlers.workers := by
  unfold RequestHandlers.selectorStep
  cases handlers.selector with
  | select | setInUse | setBusy => rfl
  | inUse key =>
    simp only
    split <;> rfl
  | isBusy key i =>
    simp only
    split
    · split <;> rfl
    · rfl
  | compareAndSet key i =>
    simp only
    split <;> rfl

/-- A worker that takes no key stays in the processing or outside of it. -/
theorem workerStep_process {handlers : RequestHandlers κ n} {i : Fin n}
    (hnone : handlers.workers i = .waitForKey → handlers.nextKey i = none) (j : Fin n) (key : κ) :
    (handlers.workerStep i).workers j = .process key ↔ handlers.workers j = .process key := by
  unfold RequestHandlers.workerStep
  cases hworker : handlers.workers i with
  | waitForKey =>
    simp only [hnone hworker]
  | process | returned => rfl
  | release released thrown =>
    simp only
    split
    all_goals
      by_cases hj : j = i
      · subst hj
        simp [hworker]
      · simp only [update_of_ne hj]
  | clearNextKey thrown =>
    by_cases hj : j = i
    · subst hj
      simp [hworker]
    · simp only [update_of_ne hj]
  | clearBusy thrown =>
    by_cases hj : j = i
    · subst hj
      cases thrown <;> simp [hworker]
    · simp only [update_of_ne hj]

omit [DecidableEq κ] in
/-- A worker that ends without buffers has not begun to process. -/
theorem outOfMemory_process {handlers handlers' : RequestHandlers κ n} {i : Fin n}
    (h : handlers.outOfMemory i = some handlers') (j : Fin n) (key : κ) :
    handlers'.workers j = .process key ↔ handlers.workers j = .process key := by
  obtain ⟨taken, hworker, -, -, rfl⟩ := RequestHandlers.outOfMemory_eq_some h
  by_cases hj : j = i
  · subst hj
    simp [hworker]
  · simp only [update_of_ne hj]

theorem channel (h : st.Projects services bufferSize s before) {i : Fin n} {e : WorkThread.Event}
    (he : e.OnChannel) (hstep : st.channelStep services bufferSize i e = some st') :
    st'.Projects services bufferSize s before := by
  unfold channelStep at hstep
  cases hworker : st.handlers.workers i with
  | process key =>
    cases hrunning : (st.tasks i).running with
    | none =>
      simp only [hworker, hrunning, Option.map_eq_some_iff] at hstep
      obtain ⟨thread, hthread, rfl⟩ := hstep
      have htask : st.tasks i = { thread := (st.tasks i).thread } := by rw [← hrunning]
      refine h.task hworker ?_ (fun _ _ => rfl) h.linear
      rw [htask]
      exact .channel he hthread
    | some execution => simp [hworker, hrunning] at hstep
  | _ => simp [hworker] at hstep

theorem work (h : st.Projects services bufferSize s before) {i : Fin n}
    (hstep : st.workStep services bufferSize i = some st') :
    st'.Projects services bufferSize s before := by
  unfold workStep at hstep
  cases hworker : st.handlers.workers i with
  | process key =>
    have hgoesOn (hbetween : ∀ cmd op c next, (st.tasks i).running ≠ some ⟨cmd, op, .call c next⟩) :
        Projects services bufferSize s before
          (st.setTask i ((st.tasks i).advance services bufferSize)) :=
      h.task hworker (.advance hbetween) (fun _ _ => rfl) h.linear
    cases hrunning : (st.tasks i).running with
    | none =>
      simp only [hworker, hrunning, Option.some.injEq] at hstep
      rw [← hstep]
      exact hgoesOn (by simp [hrunning])
    | some execution =>
      obtain ⟨cmd, op, program⟩ := execution
      cases program with
      | done answered =>
        simp only [hworker, hrunning, Option.some.injEq] at hstep
        rw [← hstep]
        exact hgoesOn (by simp [hrunning])
      | call c next =>
        simp only [hworker, hrunning, Option.some.injEq] at hstep
        rw [← hstep]
        have htask : st.tasks i =
            { thread := (st.tasks i).thread, running := some ⟨cmd, op, .call c next⟩ } := by
          rw [← hrunning]
        refine h.task hworker ?_ (fun other hne => callsOf_append_of_ne (Ne.symm hne))
          (h.linear.append_call key _)
        rw [htask, callsOf_append_self]
        exact .call st.store
  | _ => simp [hworker] at hstep

theorem step (h : st.Projects services bufferSize s before) {e : Event κ n}
    (hstep : st.step services bufferSize e = some st') :
    st'.Projects services bufferSize s before := by
  unfold MemcarrotServer.step at hstep
  cases e with
  | select key =>
    cases hs : st.handlers.selector with
    | select =>
      simp only [hs, Option.some.injEq] at hstep
      rw [← hstep]
      exact h.handlers (h.separate.move trivial) fun _ _ => Iff.rfl
    | _ => simp [hs] at hstep
  | selector =>
    simp only [Option.some.injEq] at hstep
    rw [← hstep]
    exact h.handlers h.separate.selectorStep fun _ _ => by rw [workers_selectorStep]
  | worker i memory inPtr =>
    have hgoesOn (hnone : st.handlers.workers i = .waitForKey → st.handlers.nextKey i = none) :
        Projects services bufferSize s before { st with handlers := st.handlers.workerStep i } :=
      h.handlers (h.separate.workerStep i) (workerStep_process hnone)
    cases hworker : st.handlers.workers i with
    | waitForKey =>
      cases hslot : st.handlers.nextKey i with
      | none =>
        simp only [hworker, hslot, Option.some.injEq] at hstep
        rw [← hstep]
        exact hgoesOn fun _ => hslot
      | some key =>
        simp only [hworker, hslot, Option.ite_none_right_eq_some, Option.some.injEq] at hstep
        obtain ⟨hptr, rfl⟩ := hstep
        exact h.take hworker hslot memory hptr
    | _ =>
      simp only [hworker, Option.some.injEq] at hstep
      rw [← hstep]
      exact hgoesOn (by simp [hworker])
  | work i => exact h.work hstep
  | read i bytes => exact h.channel (by trivial) hstep
  | readNothing i => exact h.channel (by trivial) hstep
  | hangUp i => exact h.channel (by trivial) hstep
  | finish i =>
    cases hworker : st.handlers.workers i with
    | process key =>
      simp only [hworker, Option.ite_none_right_eq_some, Option.some.injEq] at hstep
      obtain ⟨hfinishes, rfl⟩ := hstep
      exact h.finish hworker hfinishes (by simp) rfl
    | _ => simp [hworker] at hstep
  | outOfMemory i =>
    simp only [Option.map_eq_some_iff] at hstep
    obtain ⟨handlers, hhandlers, rfl⟩ := hstep
    exact h.handlers (h.separate.outOfMemory hhandlers) (outOfMemory_process hhandlers)

end Projects

theorem projects_of_runs
    (hrun : Runs (step services bufferSize) (fun _ _ => True) (start s) st) :
    st.Projects services bufferSize s fun _ => ({ thread := { store := s } }, []) :=
  hrun.invariant (.start s) fun h _ hstep => h.step hstep

theorem shows_task (st : MemcarrotServer κ σ n) (key : κ) : st.Shows key (st.task key) := by
  unfold task
  split
  · rename_i i hfound
    have hworker := List.find?_some hfound
    exact .worker (of_decide_eq_true hworker)
  · rename_i hnone
    refine .released fun i hi => ?_
    have hnot := List.find?_eq_none.mp hnone i (List.mem_finRange i)
    exact hnot (decide_eq_true hi)

omit [DecidableEq κ] in
theorem Shows.unique (hseparate : st.handlers.Separate) {key : κ} {t t' : Task σ}
    (h : st.Shows key t) (h' : st.Shows key t') : t = t' := by
  cases h with
  | worker hworker =>
    cases h' with
    | worker hworker' => rw [hseparate.process_unique hworker hworker']
    | released hnone => exact absurd hworker (hnone _)
  | released hnone =>
    cases h' with
    | worker hworker' => exact absurd hworker' (hnone _)
    | released => rfl

/-- A step of the server is for a connection what happens to it, or nothing. -/
theorem Projects.moves (h : st.Projects services bufferSize s before) {e : Event κ n}
    (hstep : st.step services bufferSize e = some st') (key : κ) :
    ReflTransGen (Task.Step services bufferSize (key ∈ st'.thrown))
      (st.task key, callsOf key st.calls) (st'.task key, callsOf key st'.calls) := by
  have hnow : st.Projects services bufferSize s fun key => (st.task key, callsOf key st.calls) := by
    refine ⟨h.separate, h.linear, fun {key t} hshows => ?_, h.left⟩
    rw [hshows.unique h.separate (st.shows_task key)]
  exact (hnow.step hstep).runs (st'.shows_task key)

end MemcarrotServer

end Memcarrot
