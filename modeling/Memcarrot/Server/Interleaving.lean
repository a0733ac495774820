import Memcarrot.Server.Finishing
import Memcarrot.Server.Pipelining
import Memcarrot.Server.Projection

open Incremental Interaction RawMemory Relation Transition

namespace Memcarrot

variable {σ τ : Type} {services : Services σ} {bufferSize : Nat}

namespace CommandProcessor

variable {m : Memory} {inputPtr inputSize outSize : Int} {s : σ}

/-- `process` is what comes before `execute`, and `execute`. -/
theorem process_of_ended {lastCommand : Option MemcachedCommand} {result : ProcessResult}
    (h : prepare services.utils m inputPtr inputSize = .ended lastCommand result) :
    process services m inputPtr inputSize outSize s = { store := s, lastCommand, result } := by
  unfold prepare at h
  unfold process
  cases hparse : (CommandParser.parse services.utils inputPtr inputSize).run m with
  | incomplete =>
    rw [hparse] at h
    cases h
    rfl
  | failed e =>
    rw [hparse] at h
    cases e <;> cases h <;> rfl
  | done cmd =>
    rw [hparse] at h
    simp only at h ⊢
    split at h
    · cases h
    · rename_i hunsafe
      cases h
      rw [if_neg hunsafe]

theorem parse_of_prepare {U : CacheUtils} {cmd : MemcachedCommand} {op : Operation}
    (h : prepare U m inputPtr inputSize = .command cmd op) :
    (CommandParser.parse U inputPtr inputSize).run m = .done cmd ∧
      isMemorySafe cmd inputPtr inputSize = true ∧ op = cmd.operation m := by
  unfold prepare at h
  cases hparse : (CommandParser.parse U inputPtr inputSize).run m with
  | incomplete =>
    rw [hparse] at h
    cases h
  | failed e =>
    rw [hparse] at h
    cases e <;> cases h
  | done parsed =>
    rw [hparse] at h
    simp only at h
    split at h
    · rename_i hsafe
      cases h
      exact ⟨rfl, hsafe, rfl⟩
    · cases h

theorem process_of_command {cmd : MemcachedCommand} {op : Operation}
    (h : prepare services.utils m inputPtr inputSize = .command cmd op) :
    process services m inputPtr inputSize outSize s =
      let run := op.execute services outSize s
      { store := run.store, chunks := run.chunks, lastCommand := some cmd, executed := some op
        result := run.outcome.result } := by
  obtain ⟨hparse, hsafe, rfl⟩ := parse_of_prepare h
  exact Parsing.process_eq_of_isMemorySafe hparse hsafe outSize s

end CommandProcessor

namespace WorkThread

variable {st st' : WorkThread σ}

/-- The thread on another store. -/
def withStore (st : WorkThread σ) (s : τ) : WorkThread τ where
  phase := st.phase
  memory := st.memory
  inPtr := st.inPtr
  position := st.position
  inputSize := st.inputSize
  consumed := st.consumed
  store := s
  received := st.received
  executed := st.executed
  written := st.written

theorem withStore_compact (st : WorkThread σ) (s : τ) :
    (st.withStore s).compact = st.compact.withStore s := by
  unfold compact
  by_cases hconsumed : st.consumed > 0
  · simp only [withStore, hconsumed, if_true]
  · simp only [withStore, hconsumed, if_false]

theorem withStore_outputTooLarge (st : WorkThread σ) (s : τ) :
    (st.withStore s).outputTooLarge bufferSize = (st.outputTooLarge bufferSize).withStore s := by
  unfold outputTooLarge
  split_ifs <;> rfl

theorem withStore_inputTooLarge (st : WorkThread σ) (s : τ) :
    (st.withStore s).inputTooLarge bufferSize = (st.inputTooLarge bufferSize).withStore s := by
  unfold inputTooLarge
  split_ifs
  · rfl
  · exact st.withStore_outputTooLarge s

theorem withStore_respond (st : WorkThread σ) (s : τ) (bytes : List UInt8)
    (lastCommand : Option MemcachedCommand) :
    (st.withStore s).respond bufferSize bytes lastCommand =
      (st.respond bufferSize bytes lastCommand).withStore s := by
  unfold respond
  cases lastCommand with
  | none =>
    simp only
    split_ifs <;> rfl
  | some cmd =>
    simp only
    split_ifs <;> rfl

theorem withStore_proceed (st : WorkThread σ) (r s : τ) (s' : σ) (chunks : List (List UInt8))
    (lastCommand : Option MemcachedCommand) (executed : Option Operation)
    (result : ProcessResult) :
    (st.withStore r).proceed bufferSize { store := s, chunks, lastCommand, executed, result } =
      (st.proceed bufferSize
        { store := s', chunks, lastCommand, executed, result }).withStore s := by
  let next : WorkThread σ := { st with
    store := s'
    executed := st.executed ++ executed.toList
    written := st.written ++ chunks.flatten }
  cases result with
  | incomplete => exact next.withStore_compact s
  | response bytes => exact next.withStore_respond s bytes lastCommand
  | bufferOverflow => exact next.withStore_outputTooLarge s
  | exit | uncaught => rfl

/-- An event of the channel does not touch the store. -/
theorem withStore_step {services' : Services τ} {e : Event} (he : e.OnChannel)
    (hstep : st.step services bufferSize e = some st') (s : τ) :
    (st.withStore s).step services' bufferSize e = some (st'.withStore s) := by
  cases e with
  | activate | advance => exact absurd he id
  | read bytes | readNothing | hangUp =>
    simp only [step, Option.ite_none_right_eq_some, Option.some.injEq] at hstep ⊢
    obtain ⟨hmay, rfl⟩ := hstep
    exact ⟨hmay, rfl⟩

theorem round_eq_proceed (hmore : st.consumed < st.inputSize) :
    st.round services bufferSize =
      st.proceed bufferSize
        (CommandProcessor.process services st.memory (st.inPtr + st.consumed)
          (st.inputSize - st.consumed) bufferSize st.store) := by
  rw [round, if_pos hmore]
  rfl

/-- A round on another store, where `process` does the same there. -/
theorem withStore_advance {services' : Services τ} {s s' : τ} {chunks : List (List UInt8)}
    {lastCommand : Option MemcachedCommand} {executed : Option Operation} {result : ProcessResult}
    (hphase : st.phase = .processing) (hmore : st.consumed < st.inputSize)
    (hprocess : CommandProcessor.process services' st.memory (st.inPtr + st.consumed)
      (st.inputSize - st.consumed) bufferSize s =
        { store := s', chunks, lastCommand, executed, result }) (store : σ) :
    (st.withStore s).advance services' bufferSize =
      (st.proceed bufferSize { store, chunks, lastCommand, executed, result }).withStore s' := by
  have hround : (st.withStore s).advance services' bufferSize =
      (st.withStore s).round services' bufferSize := by
    unfold advance
    rw [show (st.withStore s).phase = .processing from hphase]
  have hmore' : (st.withStore s).consumed < (st.withStore s).inputSize := hmore
  rw [hround, round_eq_proceed hmore', ← withStore_proceed st s]
  exact congrArg (fun p => (st.withStore s).proceed bufferSize p) hprocess

/-- A round reads nothing, and has executed what `process` has. -/
theorem proceed_history (bufferSize : Nat) (st : WorkThread σ) (p : Processed σ) :
    (st.proceed bufferSize p).received = st.received ∧
      (st.proceed bufferSize p).executed = st.executed ++ p.executed.toList := by
  unfold proceed compact respond outputTooLarge
  cases p.result with
  | incomplete =>
    simp only
    split_ifs <;> exact ⟨rfl, rfl⟩
  | response bytes =>
    simp only
    split_ifs
    · exact ⟨rfl, rfl⟩
    · cases p.lastCommand with
      | none => exact ⟨rfl, rfl⟩
      | some cmd =>
        simp only
        split_ifs <;> exact ⟨rfl, rfl⟩
  | bufferOverflow =>
    simp only
    split_ifs <;> exact ⟨rfl, rfl⟩
  | exit | uncaught => exact ⟨rfl, rfl⟩

theorem inputTooLarge_history (bufferSize : Nat) (st : WorkThread σ) :
    (st.inputTooLarge bufferSize).received = st.received ∧
      (st.inputTooLarge bufferSize).executed = st.executed := by
  unfold inputTooLarge outputTooLarge
  split_ifs <;> exact ⟨rfl, rfl⟩

theorem written_proceed (bufferSize : Nat) (st : WorkThread σ) (p : Processed σ) :
    st.written <+: (st.proceed bufferSize p).written := by
  unfold proceed
  refine (List.prefix_append st.written p.chunks.flatten).trans ?_
  cases p.result with
  | incomplete =>
    simp only [compact]
    split_ifs <;> exact List.prefix_rfl
  | response bytes =>
    rw [written_respond]
    split_ifs
    · exact List.prefix_rfl
    · exact List.prefix_append _ _
  | bufferOverflow =>
    rw [written_outputTooLarge]
    exact List.prefix_append _ _
  | exit | uncaught => exact List.prefix_rfl

theorem written_inputTooLarge (bufferSize : Nat) (st : WorkThread σ) :
    st.written <+: (st.inputTooLarge bufferSize).written := by
  unfold inputTooLarge
  split_ifs
  · exact List.prefix_append _ _
  · rw [written_outputTooLarge]
    exact List.prefix_append _ _

theorem written_of_channel {e : Event} (he : e.OnChannel)
    (hstep : st.step services bufferSize e = some st') : st'.written = st.written := by
  cases e with
  | activate | advance => exact absurd he id
  | read bytes | readNothing | hangUp =>
    simp only [step, Option.ite_none_right_eq_some, Option.some.injEq] at hstep
    rw [← hstep.2]

theorem executed_of_channel {e : Event} (he : e.OnChannel)
    (hstep : st.step services bufferSize e = some st') : st'.executed = st.executed := by
  cases e with
  | activate | advance => exact absurd he id
  | read bytes | readNothing | hangUp =>
    simp only [step, Option.ite_none_right_eq_some, Option.some.injEq] at hstep
    rw [← hstep.2]

end WorkThread

namespace Task

open WorkThread

variable {t t' : Task σ} {calls calls' : List (σ × σ)} {met : Nat → σ}

/-- What has been executed, and what is being executed. -/
def operations (t : Task σ) : List Operation :=
  t.thread.executed ++ (t.running.map Execution.op).toList

/-- The run of a thread alone, on the store as it is told to it. -/
abbrev RunsAlone (services : Services σ) (bufferSize : Nat) (met : Nat → σ) :
    WorkThread (Replay σ) → Prop :=
  WorkThread.Runs services.replay bufferSize (fun _ => True) { store := { met } }

/-- A connection is where a thread comes to that works for it alone, on the store as it is told to
it. In the middle of a command, the thread is before it, and what is left of the command comes to
the same as all of it. -/
inductive Follows (services : Services σ) (bufferSize : Nat) (met : Nat → σ) :
    Task σ → List (σ × σ) → Prop where
  | between {thread : WorkThread σ} {calls : List (σ × σ)}
      (hrun : RunsAlone services bufferSize met (thread.withStore ⟨met, calls⟩)) :
      Follows services bufferSize met { thread } calls
  | executing {thread : WorkThread σ} {before calls : List (σ × σ)} {cmd : MemcachedCommand}
      {op : Operation} {program : StoreProgram Answered}
      (hrun : RunsAlone services bufferSize met (thread.withStore ⟨met, before⟩))
      (hphase : thread.phase = .processing) (hmore : thread.consumed < thread.inputSize)
      (hprepare : CommandProcessor.prepare services.utils thread.memory
        (thread.inPtr + thread.consumed) (thread.inputSize - thread.consumed) = .command cmd op)
      (huses : program.Uses StoreCall.Told)
      (hrest : (op.program services bufferSize).run services.replay.support.object ⟨met, before⟩ =
        program.run services.replay.support.object ⟨met, calls⟩) :
      Follows services bufferSize met { thread, running := some ⟨cmd, op, program⟩ } calls

namespace Follows

theorem activate {thread : WorkThread σ} (h : Follows services bufferSize met { thread } calls)
    (hphase : thread.phase = .waiting ∨ thread.phase = .closed) (memory : Memory) {inPtr : Int}
    (hptr : 0 < inPtr) :
    Follows services bufferSize met (activate thread memory inPtr) calls := by
  cases h with
  | between hrun =>
    rcases hphase with hwaits | hclosed
    · have hstep : (thread.withStore (⟨met, calls⟩ : Replay σ)).step services.replay bufferSize
          (.activate memory inPtr) = some _ := if_pos ⟨hwaits, hptr⟩
      unfold Task.activate
      rw [hwaits]
      exact .between (hrun.tail ⟨_, trivial, hstep⟩)
    · unfold Task.activate
      rw [hclosed]
      exact .between hrun

theorem channel {thread thread' : WorkThread σ}
    (h : Follows services bufferSize met { thread } calls) {e : WorkThread.Event}
    (he : e.OnChannel) (hstep : thread.step services bufferSize e = some thread') :
    Follows services bufferSize met { thread := thread' } calls := by
  cases h with
  | between hrun => exact .between (hrun.tail ⟨e, trivial, withStore_step he hstep _⟩)

/-- A call of the store that finds it in the state that is told. -/
theorem call {thread : WorkThread σ} {cmd : MemcachedCommand} {op : Operation} {c : StoreCall}
    {next : c.Answer → StoreProgram Answered} {s : σ}
    (h : Follows services bufferSize met
      { thread, running := some ⟨cmd, op, .call c next⟩ } calls)
    (htells : Replay.Tells met (calls ++ [(s, (services.support.object c s).2)])) :
    Follows services bufferSize met
      { thread, running := some ⟨cmd, op, next (services.support.object c s).1⟩ }
      (calls ++ [(s, (services.support.object c s).2)]) := by
  cases h with
  | executing hrun hphase hmore hprepare huses hrest =>
    refine .executing hrun hphase hmore hprepare (huses.2 _) ?_
    rw [hrest, Program.run_call]
    have hobject : services.replay.support.object c = Replay.object services.support.object c :=
      services.support.replay_object huses.1
    have hcall : Replay.object services.support.object c ⟨met, calls⟩ = _ :=
      Replay.call_of_tells htells
    rw [hobject, hcall]

/-- The round of the loop over the requests, once the command has been executed. -/
theorem conclude {thread : WorkThread σ} {cmd : MemcachedCommand} {op : Operation}
    {answered : Answered}
    (h : Follows services bufferSize met
      { thread, running := some ⟨cmd, op, .done answered⟩ } calls) :
    Follows services bufferSize met
      (advance services bufferSize { thread, running := some ⟨cmd, op, .done answered⟩ })
      calls := by
  obtain ⟨chunks, outcome⟩ := answered
  cases h with
  | @executing _ before _ _ _ _ hrun hphase hmore hprepare huses hrest =>
    have hexecute : op.execute services.replay bufferSize ⟨met, before⟩ =
        ⟨⟨met, calls⟩, chunks, outcome⟩ := by
      rw [op.execute_eq_run]
      have hprogram : op.program services.replay bufferSize = op.program services bufferSize := rfl
      rw [hprogram, hrest]
      rfl
    have hprocess : CommandProcessor.process services.replay thread.memory
        (thread.inPtr + thread.consumed) (thread.inputSize - thread.consumed) bufferSize
        ⟨met, before⟩ = { store := ⟨met, calls⟩, chunks, lastCommand := some cmd
                          executed := some op, result := outcome.result } := by
      have hprepare' : CommandProcessor.prepare services.replay.utils thread.memory
          (thread.inPtr + thread.consumed) (thread.inputSize - thread.consumed) =
            .command cmd op := hprepare
      rw [CommandProcessor.process_of_command hprepare', hexecute]
    have hadvance := withStore_advance hphase hmore hprocess thread.store
    have hnext := hrun.tail ⟨.advance, trivial, rfl⟩
    rw [hadvance] at hnext
    exact .between hnext

/-- The thread goes on without a call of the store. -/
theorem goOn {thread : WorkThread σ} (h : Follows services bufferSize met { thread } calls)
    (hplain : ∀ op ∈ (advance services bufferSize { thread }).operations, op.Plain) :
    Follows services bufferSize met (advance services bufferSize { thread }) calls := by
  cases h with
  | between hrun =>
    have hnext := hrun.tail ⟨.advance, trivial, rfl⟩
    unfold advance at hplain ⊢
    cases hphase : thread.phase with
    | processing =>
      simp only [hphase] at hplain ⊢
      by_cases hmore : thread.consumed < thread.inputSize
      · simp only [hmore, if_true] at hplain ⊢
        cases hprepare : CommandProcessor.prepare services.utils thread.memory
          (thread.inPtr + thread.consumed) (thread.inputSize - thread.consumed) with
        | ended lastCommand result =>
          have hprocess : CommandProcessor.process services.replay thread.memory
              (thread.inPtr + thread.consumed) (thread.inputSize - thread.consumed) bufferSize
              ⟨met, calls⟩ = { store := ⟨met, calls⟩, lastCommand, result } :=
            CommandProcessor.process_of_ended hprepare
          rw [withStore_advance hphase hmore hprocess thread.store] at hnext
          exact .between hnext
        | command cmd op =>
          simp only [hprepare] at hplain ⊢
          have hop : op.Plain := hplain op (by simp [operations])
          exact .executing hrun hphase hmore hprepare (op.uses_program services bufferSize hop) rfl
      · have hwaits : (thread.withStore (⟨met, calls⟩ : Replay σ)).advance services.replay
            bufferSize = ({ thread with phase := .waiting } : WorkThread σ).withStore
              ⟨met, calls⟩ := by
          simp only [WorkThread.advance, WorkThread.round, withStore, hphase, hmore, if_false]
        rw [hwaits] at hnext
        simp only [hmore, if_false]
        exact .between hnext
    | reading =>
      simp only [hphase]
      by_cases hfull : thread.inputSize = bufferSize
      · have hlarge : (thread.withStore (⟨met, calls⟩ : Replay σ)).advance services.replay
            bufferSize = (thread.inputTooLarge bufferSize).withStore ⟨met, calls⟩ := by
          rw [← withStore_inputTooLarge]
          simp only [WorkThread.advance, withStore, hphase]
          exact if_pos hfull
        rw [hlarge] at hnext
        rw [if_pos hfull]
        exact .between hnext
      · rw [if_neg hfull]
        exact .between hrun
    | waiting | closed | dead | exited =>
      simp only [hphase]
      exact .between hrun

/-- What happens to a connection happens to the thread that works for it alone. -/
theorem step (h : Follows services bufferSize met t calls)
    (hstep : Task.Step services bufferSize False (t, calls) (t', calls'))
    (htells : Replay.Tells met calls') (hplain : ∀ op ∈ t'.operations, op.Plain) :
    Follows services bufferSize met t' calls' := by
  cases hstep with
  | activate memory hptr hphase =>
    exact h.activate (hphase.imp_right fun h => h.resolve_right And.right) memory hptr
  | channel he hstep => exact h.channel he hstep
  | call s => exact h.call htells
  | advance hbetween =>
    obtain ⟨thread, running⟩ := t
    cases running with
    | none => exact h.goOn hplain
    | some execution =>
      obtain ⟨cmd, op, program⟩ := execution
      cases program with
      | done answered => exact h.conclude
      | call c next => exact absurd rfl (hbetween cmd op c next)

end Follows

/-- Between two states of a connection, nothing that was received, executed, written or called is
lost. -/
structure Extends (l l' : Task σ × List (σ × σ)) : Prop where
  received : l.1.thread.received <+: l'.1.thread.received
  operations : l.1.operations <+: l'.1.operations
  written : l.1.thread.written <+: l'.1.thread.written
  calls : l.2 <+: l'.2

theorem Extends.refl (l : Task σ × List (σ × σ)) : Extends l l :=
  ⟨List.prefix_rfl, List.prefix_rfl, List.prefix_rfl, List.prefix_rfl⟩

theorem Extends.trans {l l' l'' : Task σ × List (σ × σ)} (h : Extends l l')
    (h' : Extends l' l'') : Extends l l'' :=
  ⟨h.received.trans h'.received, h.operations.trans h'.operations, h.written.trans h'.written,
    h.calls.trans h'.calls⟩

theorem extends_proceed (bufferSize : Nat) {thread : WorkThread σ} {running : Option Execution}
    {p : Processed σ} (h : p.executed = running.map Execution.op) (calls : List (σ × σ)) :
    Extends ({ thread, running }, calls)
      ({ thread := thread.proceed bufferSize p }, calls) := by
  obtain ⟨hreceived, hexecuted⟩ := thread.proceed_history bufferSize p
  refine ⟨?_, ?_, thread.written_proceed bufferSize p, List.prefix_rfl⟩
  · simp only [hreceived]
    exact List.prefix_rfl
  · simp only [operations, hexecuted, h]
    exact List.prefix_append _ _

theorem extends_advance (services : Services σ) (bufferSize : Nat) (t : Task σ)
    (calls : List (σ × σ)) : Extends (t, calls) (t.advance services bufferSize, calls) := by
  obtain ⟨thread, running⟩ := t
  unfold advance
  cases running with
  | some execution =>
    obtain ⟨cmd, op, program⟩ := execution
    cases program with
    | done answered => exact extends_proceed bufferSize rfl calls
    | call c next => exact .refl _
  | none =>
    simp only
    cases thread.phase with
    | processing =>
      simp only
      split
      · split
        · exact extends_proceed bufferSize rfl calls
        · refine ⟨List.prefix_rfl, ?_, List.prefix_rfl, List.prefix_rfl⟩
          simp [operations]
      · exact ⟨List.prefix_rfl, List.prefix_rfl, List.prefix_rfl, List.prefix_rfl⟩
    | reading =>
      simp only
      split
      · obtain ⟨hreceived, hexecuted⟩ := thread.inputTooLarge_history bufferSize
        refine ⟨?_, ?_, thread.written_inputTooLarge bufferSize, List.prefix_rfl⟩
        · simp only [hreceived]
          exact List.prefix_rfl
        · simp only [operations, hexecuted]
          exact List.prefix_rfl
      · exact .refl _
    | waiting | closed | dead | exited => exact .refl _

theorem Step.extends {revives : Prop} {l l' : Task σ × List (σ × σ)}
    (hstep : Task.Step services bufferSize revives l l') : Extends l l' := by
  cases hstep with
  | activate memory hptr hphase =>
    unfold Task.activate
    split
    all_goals exact ⟨List.prefix_rfl, List.prefix_rfl, List.prefix_rfl, List.prefix_rfl⟩
  | channel he hstep =>
    refine ⟨received_of_step hstep, ?_, ?_, List.prefix_rfl⟩
    · simp only [operations, executed_of_channel he hstep]
      exact List.prefix_rfl
    · simp only [written_of_channel he hstep]
      exact List.prefix_rfl
  | advance hbetween => exact extends_advance services bufferSize _ _
  | call s => exact ⟨List.prefix_rfl, List.prefix_rfl, List.prefix_rfl, List.prefix_append _ _⟩

theorem extends_of_steps {revives : Prop} {l l' : Task σ × List (σ × σ)}
    (hsteps : ReflTransGen (Task.Step services bufferSize revives) l l') : Extends l l' := by
  induction hsteps with
  | refl => exact .refl _
  | tail _ hstep ih => exact ih.trans hstep.extends

/-- A thread that is in front of the command comes to be executed. -/
def Begins (U : CacheUtils) (t : Task σ) (op : Operation) : Prop :=
  t.running = none ∧ t.thread.phase = .processing ∧ t.thread.consumed < t.thread.inputSize ∧
    ∃ cmd, CommandProcessor.prepare U t.thread.memory (t.thread.inPtr + t.thread.consumed)
      (t.thread.inputSize - t.thread.consumed) = .command cmd op

theorem operation_of_proceed {thread : WorkThread σ} {running : Option Execution}
    {p : Processed σ} (h : p.executed = running.map Execution.op) {op : Operation}
    (hop : op ∈ ({ thread := thread.proceed bufferSize p } : Task σ).operations) :
    op ∈ ({ thread, running } : Task σ).operations := by
  obtain ⟨-, hexecuted⟩ := thread.proceed_history bufferSize p
  simpa only [operations, hexecuted, h, Option.map_none, Option.toList_none, List.append_nil]
    using hop

theorem operation_of_advance {op : Operation}
    (hop : op ∈ (t.advance services bufferSize).operations) :
    op ∈ t.operations ∨ t.Begins services.utils op := by
  obtain ⟨thread, running⟩ := t
  unfold advance at hop
  cases running with
  | some execution =>
    obtain ⟨cmd, op', program⟩ := execution
    cases program with
    | done answered => exact .inl (operation_of_proceed rfl hop)
    | call c next => exact .inl hop
  | none =>
    simp only at hop
    cases hphase : thread.phase with
    | processing =>
      simp only [hphase] at hop
      split at hop
      · rename_i hmore
        cases hprepare : CommandProcessor.prepare services.utils thread.memory
          (thread.inPtr + thread.consumed) (thread.inputSize - thread.consumed) with
        | ended lastCommand result =>
          simp only [hprepare] at hop
          exact .inl (operation_of_proceed rfl hop)
        | command cmd op' =>
          simp only [hprepare, operations, Option.map_some, Option.toList_some, List.mem_append,
            List.mem_singleton] at hop
          rcases hop with hop | rfl
          · exact .inl (List.mem_append_left _ hop)
          · exact .inr ⟨rfl, hphase, hmore, cmd, hprepare⟩
      · exact .inl hop
    | reading =>
      simp only [hphase] at hop
      split at hop
      · obtain ⟨-, hexecuted⟩ := thread.inputTooLarge_history bufferSize
        simp only [operations, hexecuted] at hop
        exact .inl hop
      · exact .inl hop
    | waiting | closed | dead | exited =>
      simp only [hphase] at hop
      exact .inl hop

theorem Step.operation {revives : Prop} {op : Operation}
    (hstep : Task.Step services bufferSize revives (t, calls) (t', calls'))
    (hop : op ∈ t'.operations) : op ∈ t.operations ∨ t.Begins services.utils op := by
  cases hstep with
  | activate memory hptr hphase =>
    left
    unfold Task.activate at hop
    split at hop <;> exact hop
  | channel he hstep =>
    simp only [operations, executed_of_channel he hstep] at hop
    exact .inl hop
  | advance hbetween => exact operation_of_advance hop
  | call s => exact .inl hop

/-- A connection is where a thread comes to that works for it alone, unless what has been thrown on
it before was not caught inside. -/
theorem follows_of_run {s : σ}
    (hrun : ReflTransGen (Task.Step services bufferSize False) ({ thread := { store := s } }, [])
      (t, calls))
    (htells : Replay.Tells met calls) (hplain : ∀ op ∈ t.operations, op.Plain) :
    Follows services bufferSize met t calls := by
  generalize hlast : (t, calls) = last at hrun
  induction hrun generalizing t calls with
  | refl =>
    cases hlast
    exact .between .refl
  | @tail before _ _ hstep ih =>
    subst hlast
    have hextends := hstep.extends
    obtain ⟨more, hmore⟩ : ∃ more, before.2 ++ more = calls := hextends.calls
    have htellsBefore : Replay.Tells met before.2 := Replay.Tells.of_append (hmore ▸ htells)
    have hplainBefore (op : Operation) (hop : op ∈ before.1.operations) : op.Plain :=
      hplain op (hextends.operations.subset hop)
    exact (ih htellsBefore hplainBefore rfl).step hstep htells hplain

end Task

section Requests

open CommandProcessor WorkThread

variable {requests : List (Wire.Request services.replay.utils)} {replyPtr : Int}

/-- A run with a failing channel is one without, but for the end. -/
theorem WorkThread.exists_delivers {s : σ} {st : WorkThread σ}
    (hrun : WorkThread.Runs services bufferSize (fun _ => True) { store := s } st) :
    ∃ v, WorkThread.Runs services bufferSize Event.Delivers { store := s } v ∧
      (st = v ∨ st = { v with phase := .closed }) := by
  induction hrun with
  | refl => exact ⟨_, .refl, .inl rfl⟩
  | tail _ hlast ih =>
    obtain ⟨e, -, hstep⟩ := hlast
    obtain ⟨v, hv, heq | heq⟩ := ih
    · rw [heq] at hstep
      by_cases he : e.Delivers
      · exact ⟨_, hv.tail ⟨e, he, hstep⟩, .inl rfl⟩
      · cases e with
        | hangUp =>
          simp only [WorkThread.step, Option.ite_none_right_eq_some, Option.some.injEq] at hstep
          exact ⟨v, hv, .inr hstep.2.symm⟩
        | _ => exact absurd trivial he
    · rw [heq] at hstep
      refine ⟨v, hv, .inr ?_⟩
      cases e with
      | advance =>
        simp only [WorkThread.step, WorkThread.advance, Option.some.injEq] at hstep
        exact hstep.symm
      | _ => simp [WorkThread.step, MayRead] at hstep

/-- The requests in front of which a connection stands: those before have been executed, each once
and in order, and what was written are the replies to them in the states that are told. Where the
connection waits or is read, they are all that were received as a whole. -/
structure Answers (services : Services σ) (bufferSize : Nat) (replyPtr : Int) (met : Nat → σ)
    (calls : List (σ × σ)) (thread : WorkThread σ)
    (served todo : List (Wire.Request services.replay.utils)) : Prop where
  received : ∃ rest, thread.received =
      (protocol services.replay bufferSize replyPtr).stream served ++ rest ∧
    (thread.phase = .waiting ∨ thread.phase = .reading → Unfinished todo rest)
  executed : thread.executed = served.map Wire.Request.operation
  replies : (protocol services.replay bufferSize replyPtr).serveAll served { met } =
    some (thread.written, { met, calls })

variable {met : Nat → σ} {calls : List (σ × σ)} {thread : WorkThread σ}
  {result : List UInt8 × Replay σ}
  (hserved : Served services.replay bufferSize replyPtr requests { met } result)
include hserved

theorem exists_represents
    (hreceived : thread.received <+:
      (protocol services.replay bufferSize replyPtr).stream requests)
    (hrun : Task.RunsAlone services bufferSize met (thread.withStore ⟨met, calls⟩)) :
    (thread.phase.isOpen = true ∨ thread.phase = .closed) ∧
      ∃ v t, (thread.phase ≠ .closed → v = thread.withStore (⟨met, calls⟩ : Replay σ)) ∧
        Session.Sound (protocol services.replay bufferSize replyPtr) { met } t ∧
        WorkThread.Represents requests v t ∧ v.received = thread.received ∧
        v.executed = thread.executed ∧ v.written = thread.written ∧ v.store = ⟨met, calls⟩ := by
  obtain ⟨v, hv, heq⟩ := exists_delivers hrun
  have hsame : v.received = thread.received ∧ v.executed = thread.executed ∧
      v.written = thread.written ∧ v.store = { met, calls } := by
    rcases heq with heq | heq
    · rw [← heq]
      exact ⟨rfl, rfl, rfl, rfl⟩
    · have hfield {α : Type} (f : WorkThread (Replay σ) → α)
          (hf : f { v with phase := .closed } = f v) : f v = f (thread.withStore ⟨met, calls⟩) := by
        rw [heq, hf]
      exact ⟨hfield received rfl, hfield executed rfl, hfield written rfl, hfield store rfl⟩
  have hprefix : v.received <+:
      (protocol services.replay bufferSize replyPtr).stream requests := by
    rw [hsame.1]
    exact hreceived
  obtain ⟨t, hsession, hrep⟩ := exists_session hserved hv hprefix
  have hphase : thread.phase = (thread.withStore (⟨met, calls⟩ : Replay σ)).phase := rfl
  refine ⟨?_, v, t, fun hnot => ?_, Session.sound_of_run hsession, hrep, hsame⟩
  · rcases heq with heq | heq
    · rw [hphase, heq]
      exact .inl hrep.isOpen
    · rw [hphase, heq]
      exact .inr rfl
  · rcases heq with heq | heq
    · exact heq.symm
    · rw [hphase, heq] at hnot
      exact absurd rfl hnot

/-- Where the connection stands between two commands. -/
theorem exists_answers
    (hreceived : thread.received <+:
      (protocol services.replay bufferSize replyPtr).stream requests)
    (hrun : Task.RunsAlone services bufferSize met (thread.withStore ⟨met, calls⟩)) :
    ∃ served todo, requests = served ++ todo ∧
      Answers services bufferSize replyPtr met calls thread served todo := by
  obtain ⟨-, v, t, hv, hsound, hrep, hreceived', hexecuted, hwritten, hstore⟩ :=
    exists_represents hserved hreceived hrun
  obtain ⟨todo, htodo⟩ := hrep.served
  have hwaits (hphase : thread.phase = .waiting ∨ thread.phase = .reading) :
      Unfinished todo t.input := by
    have hnot : thread.phase ≠ .processing ∧ thread.phase ≠ .closed := by
      rcases hphase with hphase | hphase <;> simp [hphase]
    obtain rfl := hv hnot.2
    exact (hrep.cutOff hnot.1).unfinished htodo
  refine ⟨t.served, todo, htodo.symm, ⟨t.input, ?_, hwaits⟩, ?_, ?_⟩
  · rw [← hreceived', hrep.received, hsound.received]
  · rw [← hexecuted, hrep.executed]
  · rw [hsound.served, ← hrep.written, ← hrep.store, hwritten, hstore]

/-- The command that a connection comes to is one of its requests. -/
theorem plain_of_prepare
    (hreceived : thread.received <+:
      (protocol services.replay bufferSize replyPtr).stream requests)
    (hrun : Task.RunsAlone services bufferSize met (thread.withStore ⟨met, calls⟩))
    (hphase : thread.phase = .processing) (hmore : thread.consumed < thread.inputSize)
    {cmd : MemcachedCommand} {op : Operation}
    (hprepare : prepare services.utils thread.memory (thread.inPtr + thread.consumed)
      (thread.inputSize - thread.consumed) = .command cmd op) : op.Plain := by
  obtain ⟨-, v, t, hv, hsound, hrep, hreceived', -⟩ :=
    exists_represents hserved hreceived hrun
  obtain rfl := hv (by rw [hphase]; exact Phase.noConfusion)
  obtain ⟨hparse, -, rfl⟩ := parse_of_prepare hprepare
  have hphase' : (thread.withStore (⟨met, calls⟩ : Replay σ)).phase = .processing := hphase
  have hbounded := hrep.processing hphase'
  have hlength : ((thread.withStore (⟨met, calls⟩ : Replay σ)).unconsumed.length : Int) =
      thread.inputSize - thread.consumed := length_unconsumed hphase' hbounded
  have hslice : (thread.withStore (⟨met, calls⟩ : Replay σ)).unconsumed =
      thread.memory.slice (thread.inPtr + thread.consumed)
        (thread.inputSize - thread.consumed).toNat := unconsumed_eq hphase'
  have hsize : ((thread.inputSize - thread.consumed).toNat : Int) =
      thread.inputSize - thread.consumed := by omega
  have hunconsumed := hrep.unconsumed
  have hne : t.input ≠ [] := by
    intro hnil
    rw [hunconsumed, hnil, List.length_nil] at hlength
    omega
  rw [← hsize, Refinement.parse_run, ← hslice, hunconsumed] at hparse
  obtain ⟨todo, htodo, hinput⟩ := hrep.exists_todo hsound hreceived
  obtain ⟨r, todo, rfl, ⟨rest, hrest, -⟩ | ⟨hcut, hcutOff⟩⟩ := prefix_stream_cases _ hinput hne
  · have hrest' : t.input = r.bytes ++ rest := hrest
    have hcmd := r.parse_eq (thread.inPtr + thread.consumed) rest
    rw [← hrest'] at hcmd
    obtain rfl := Verdict.done.inj (hcmd.symm.trans hparse)
    have hcls := (r.cls_command (thread.inPtr + thread.consumed))
    obtain ⟨-, -, hshutdown, hstats⟩ := r.cls_ne
    exact ⟨fun h => hstats (hcls.symm.trans h), fun h => hshutdown (hcls.symm.trans h)⟩
  · have hr : r ∈ requests := by simp [htodo]
    have hincomplete := r.parse_cut (hserved.singleSpaced r hr) hcut hcutOff
      (thread.inPtr + thread.consumed)
    cases hincomplete.symm.trans hparse

/-- A connection that sends the requests is where a thread comes to that works for it alone. -/
theorem follows_of_requests {s : σ} {t : Task σ}
    (hrun : ReflTransGen (Task.Step services bufferSize True) ({ thread := { store := s } }, [])
      (t, calls))
    (hreceived : t.thread.received <+:
      (protocol services.replay bufferSize replyPtr).stream requests)
    (htells : Replay.Tells met calls) :
    Task.Follows services bufferSize met t calls ∧ ∀ op ∈ t.operations, op.Plain := by
  generalize hlast : (t, calls) = last at hrun
  induction hrun generalizing t calls with
  | refl =>
    cases hlast
    exact ⟨.between .refl, by simp [Task.operations]⟩
  | @tail before _ _ hstep ih =>
    subst hlast
    obtain ⟨t₀, calls₀⟩ := before
    have hextends := hstep.extends
    obtain ⟨more, hmore⟩ : ∃ more, calls₀ ++ more = calls := hextends.calls
    have htells₀ : Replay.Tells met calls₀ := Replay.Tells.of_append (hmore ▸ htells)
    have hreceived₀ := hextends.received.trans hreceived
    obtain ⟨hfollows, hplain⟩ := ih hreceived₀ htells₀ rfl
    have hplain' (op : Operation) (hop : op ∈ t.operations) : op.Plain := by
      rcases hstep.operation hop with hbefore | ⟨hrunning, hphase, hbytes, cmd, hprepare⟩
      · exact hplain op hbefore
      · cases hfollows with
        | between hrun =>
          exact plain_of_prepare hserved hreceived₀ hrun hphase hbytes hprepare
        | executing => cases hrunning
    have hstep' : Task.Step services bufferSize False (t₀, calls₀) (t, calls) := by
      cases hstep with
      | activate memory hptr hphase =>
        refine .activate memory hptr (hphase.imp_right fun h => .inl (h.resolve_right ?_))
        rintro ⟨hdead, -⟩
        cases hfollows with
        | between hrun =>
          obtain ⟨hopen | hclosed, -⟩ := exists_represents hserved hreceived₀ hrun
          · rw [hdead] at hopen
            cases hopen
          · rw [hdead] at hclosed
            cases hclosed
      | channel he hstep => exact .channel he hstep
      | advance hbetween => exact .advance hbetween
      | call s => exact .call s
    exact ⟨hfollows.step hstep' htells hplain', hplain'⟩

end Requests

namespace MemcarrotServer

open CommandProcessor

variable {κ : Type} [DecidableEq κ] {n : Nat} {st : MemcarrotServer κ σ n} {s : σ} {key : κ}
  {thread : WorkThread σ}

/-- A connection asks for a record and then deletes it, and between the two the worker of another
connection has deleted it. -/
theorem exists_get_delete :
    ∃ (st : MemcarrotServer Nat ListStore 2) (thread : WorkThread ListStore),
      Runs (step listServices 64) (fun _ _ => True)
        (start { items := [(ascii "k", { value := some [] })] }) st ∧
      st.Shows 8 { thread } ∧ st.thrown = [] ∧
      thread.received = ascii "get k\r\ndelete k\r\n" ∧
      (∀ op ∈ thread.executed, op.Plain) ∧
      thread.written = ascii "VALUE k 0 0\r\n\r\nEND\r\nNOT_FOUND\r\n" ∧
      (callsOf 8 st.calls).map Prod.fst =
        [{ items := [(ascii "k", { value := some [] })] }, {}] := by
  let events : List (Event Nat 2) :=
    [.select 7, .selector, .selector, .selector, .selector, .selector, .worker 0 (fun _ => 0) 1,
      .select 8, .selector, .selector, .selector, .selector, .selector, .selector,
      .worker 1 (fun _ => 0) 1, .read 0 (ascii "delete k\r\n"),
      .read 1 (ascii "get k\r\ndelete k\r\n"), .work 1, .work 0, .work 1, .work 1, .work 0,
      .work 0, .work 1, .work 1, .work 1]
  let start : MemcarrotServer Nat ListStore 2 :=
    start { items := [(ascii "k", { value := some [] })] }
  have hlast : (follow (step listServices 64) start events).any (fun st =>
      st.handlers.workers 1 = .process 8 ∧ (st.tasks 1).running.isNone = true ∧
      st.thrown = [] ∧ (st.tasks 1).thread.received = ascii "get k\r\ndelete k\r\n" ∧
      (∀ op ∈ (st.tasks 1).thread.executed, op.cls ≠ .STATS ∧ op.cls ≠ .SHUTDOWN) ∧
      (st.tasks 1).thread.written = ascii "VALUE k 0 0\r\n\r\nEND\r\nNOT_FOUND\r\n" ∧
      (callsOf 8 st.calls).map Prod.fst =
        [{ items := [(ascii "k", { value := some [] })] }, {}]) = true := by
    decide +kernel
  obtain ⟨st, hst, hfacts⟩ := (Option.any_eq_true _ _).mp hlast
  obtain ⟨hworker, hrunning, hfacts⟩ := of_decide_eq_true hfacts
  have htask : st.tasks 1 = { thread := (st.tasks 1).thread } := by
    rw [Option.isNone_iff_eq_none] at hrunning
    rw [← hrunning]
  have hshows : st.Shows 8 { thread := (st.tasks 1).thread } := htask ▸ .worker hworker
  exact ⟨st, (st.tasks 1).thread, runs_of_follow hst fun _ _ _ => trivial, hshows, hfacts⟩

/-- All calls of all connections are one history of the store that the workers share. Whatever they
do at the same time for other connections, a connection is served as if it were alone: between two
of its commands it is where one thread comes to that works for it alone on the store as it is told
to it, which is the shared one in the states in which its calls find it. -/
theorem served_alone
    (hrun : Runs (step services bufferSize) (fun _ _ => True)
      (start s : MemcarrotServer κ σ n) st) :
    Linear s st.calls st.store ∧
      ∀ key thread, st.Shows key { thread } → key ∉ st.thrown →
        (∀ op ∈ thread.executed, op.Plain) → ∀ met, Replay.Tells met (callsOf key st.calls) →
          WorkThread.Runs services.replay bufferSize (fun _ => True) { store := { met } }
            (thread.withStore { met, calls := callsOf key st.calls }) := by
  have hprojects := projects_of_runs hrun
  refine ⟨hprojects.linear, fun key thread hshows hthrown hplain met htells => ?_⟩
  have hlocal : ReflTransGen (Task.Step services bufferSize False)
      ({ thread := { store := s } }, []) ({ thread }, callsOf key st.calls) := by
    have hruns := hprojects.runs hshows
    simpa only [hthrown] using hruns
  have hfollows := Task.follows_of_run hlocal htells (by simpa [Task.operations] using hplain)
  cases hfollows with
  | between hrun => exact hrun

theorem served_alone_get_delete :
    ∃ (st : MemcarrotServer Nat ListStore 2) (thread : WorkThread ListStore),
      thread.written = ascii "VALUE k 0 0\r\n\r\nEND\r\nNOT_FOUND\r\n" ∧
      Linear { items := [(ascii "k", { value := some [] })] } st.calls st.store ∧
      ∀ met, Replay.Tells met (callsOf 8 st.calls) →
        WorkThread.Runs listServices.replay 64 (fun _ => True) { store := { met } }
          (thread.withStore { met, calls := callsOf 8 st.calls }) := by
  obtain ⟨st, thread, hrun, hshows, hthrown, -, hplain, hwritten, -⟩ := exists_get_delete
  obtain ⟨hlinear, halone⟩ := served_alone hrun
  exact ⟨st, thread, hwritten, hlinear, halone 8 thread hshows (by simp [hthrown]) hplain⟩

/-- A connection that sends requests is answered right in every interleaving with other connections,
whatever those send, if in the states in which its calls have found the shared store each request,
fed alone, gets a reply that fits: its requests are executed in order, each once, and what is
written to it are the replies to them, fed alone, to a store in those states. -/
theorem answered_right {requests : List (Wire.Request services.replay.utils)} {replyPtr : Int}
    (hrun : Runs (step services bufferSize) (fun _ _ => True) (start s : MemcarrotServer κ σ n) st)
    (hshows : st.Shows key { thread })
    (hreceived : thread.received <+:
      (protocol services.replay bufferSize replyPtr).stream requests) :
    Linear s st.calls st.store ∧
      ∀ met, Replay.Tells met (callsOf key st.calls) → ∀ result,
        WorkThread.Served services.replay bufferSize replyPtr requests { met } result →
        ∃ served todo, requests = served ++ todo ∧
          Answers services bufferSize replyPtr met (callsOf key st.calls) thread served todo := by
  have hprojects := projects_of_runs hrun
  refine ⟨hprojects.linear, fun met htells result hserved => ?_⟩
  have hsteps : Task.Step services bufferSize (key ∈ st.thrown) ≤
      Task.Step services bufferSize True := fun _ _ hstep => Task.Step.mono hstep fun _ => trivial
  have hlocal := ReflTransGen.mono hsteps _ _ (hprojects.runs hshows)
  obtain ⟨hfollows, -⟩ := follows_of_requests hserved hlocal hreceived htells
  cases hfollows with
  | between hrun => exact exists_answers hserved hreceived hrun

theorem answered_right_get_delete :
    let requests : List (Wire.Request listServices.replay.utils) :=
      [.retrieval { cls := .GET, exptime := none, gap := 0, keys := [⟨ascii "k", by decide⟩]
                    isRetrieval := rfl, exptime_isSome := rfl, gap_pos := by decide },
       .delete { key := ⟨ascii "k", by decide⟩, gap := none }]
    ∃ (st : MemcarrotServer Nat ListStore 2) (thread : WorkThread ListStore)
      (met : Nat → ListStore),
      thread.received = (protocol listServices.replay 64 1).stream requests ∧
      thread.written = ascii "VALUE k 0 0\r\n\r\nEND\r\nNOT_FOUND\r\n" ∧
      Linear { items := [(ascii "k", { value := some [] })] } st.calls st.store ∧
      ∃ served todo, requests = served ++ todo ∧
        Answers listServices 64 1 met (callsOf 8 st.calls) thread served todo := by
  intro requests
  obtain ⟨st, thread, hrun, hshows, -, hreceived, -, hwritten, hcalls⟩ := exists_get_delete
  let met : Nat → ListStore := fun i =>
    if i = 0 then { items := [(ascii "k", { value := some [] })] } else {}
  have hstream : thread.received = (protocol listServices.replay 64 1).stream requests :=
    hreceived.trans (by decide +kernel)
  have htells : Replay.Tells met (callsOf 8 st.calls) := by
    intro i hi
    have hfound := congrArg (·[i]?) hcalls
    simp only [List.getElem?_map, List.getElem?_eq_getElem hi, Option.map_some] at hfound
    have hlength := congrArg List.length hcalls
    simp only [List.length_map, List.length_cons, List.length_nil] at hlength
    obtain rfl | rfl : i = 0 ∨ i = 1 := by omega
    · exact (Option.some.inj hfound).symm
    · exact (Option.some.inj hfound).symm
  have hisSome : ((protocol listServices.replay 64 1).serveAll requests { met }).isSome = true := by
    decide +kernel
  obtain ⟨result, hreplies⟩ := Option.isSome_iff_exists.mp hisSome
  have hserved : WorkThread.Served listServices.replay 64 1 requests { met } result :=
    ⟨by decide, by decide, by simp [requests, Wire.Request.SingleSpaced], by decide +kernel,
      hreplies⟩
  have hfront : thread.received <+: (protocol listServices.replay 64 1).stream requests := by
    rw [hstream]
  obtain ⟨hlinear, hanswers⟩ := answered_right hrun hshows hfront
  exact ⟨st, thread, met, hstream, hwritten, hlinear, hanswers met htells result hserved⟩

end MemcarrotServer

end Memcarrot
