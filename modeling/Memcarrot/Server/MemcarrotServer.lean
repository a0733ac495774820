import Memcarrot.Commands.Programs
import Memcarrot.Server.RequestHandlers
import Memcarrot.Server.WorkThread

open Function Interaction RawMemory

namespace Memcarrot

/-- What `process` has come to without a call of the store: its end, or the command whose execute
it calls, with the bytes it refers to. -/
inductive Prepared where
  | ended (lastCommand : Option MemcachedCommand) (result : ProcessResult)
  | command (cmd : MemcachedCommand) (op : Operation)

/-- The part of `process` before `execute`. -/
def CommandProcessor.prepare (U : CacheUtils) (m : Memory) (inputPtr inputSize : Int) : Prepared :=
  match (CommandParser.parse U inputPtr inputSize).run m with
  | .incomplete => .ended none .incomplete
  | .failed (.unsupportedCommand _) => .ended none (.response (ascii "ERROR\r\n"))
  | .failed (.illegalFormat msg) =>
    .ended none (.response (ascii ("CLIENT_ERROR " ++ msg ++ "\r\n")))
  | .failed e => .ended none (.uncaught e)
  | .done cmd =>
    if isMemorySafe cmd inputPtr inputSize then .command cmd (cmd.operation m)
    else .ended (some cmd) (.response INTERNAL_ERROR)

/-- What a round does once `process` has returned or thrown. -/
def WorkThread.proceed {σ : Type} (bufferSize : Nat) (p : Processed σ) (st : WorkThread σ) :
    WorkThread σ :=
  let st := { st with
    store := p.store
    executed := st.executed ++ p.executed.toList
    written := st.written ++ p.chunks.flatten }
  match p.result with
  | .incomplete => st.compact
  | .response bytes => st.respond bufferSize bytes p.lastCommand
  | .bufferOverflow => st.outputTooLarge bufferSize
  | .exit => { st with phase := .exited }
  | .uncaught _ => { st with phase := .dead }

/-- A command that is being executed, with the calls of the store that are still to be made. -/
structure Execution where
  cmd : MemcachedCommand
  op : Operation
  program : StoreProgram Answered

/-- What a worker does for the connection of the key it has taken. The field `store` of the thread
is not used: the store is the one that the workers share. -/
structure Task (σ : Type) where
  thread : WorkThread σ
  running : Option Execution := none

namespace Task

variable {σ : Type}

/-- What a worker does without the channel and the store. -/
def advance (services : Services σ) (bufferSize : Nat) (t : Task σ) : Task σ :=
  let thread := t.thread
  match t.running with
  | some ⟨cmd, op, .done (chunks, outcome)⟩ =>
    { thread := thread.proceed bufferSize
        { store := thread.store, chunks, lastCommand := some cmd, executed := some op
          result := outcome.result } }
  | some ⟨_, _, .call ..⟩ => t
  | none =>
    match thread.phase with
    | .processing =>
      if thread.consumed < thread.inputSize then
        match CommandProcessor.prepare services.utils thread.memory
          (thread.inPtr + thread.consumed) (thread.inputSize - thread.consumed) with
        | .ended lastCommand result =>
          { thread := thread.proceed bufferSize { store := thread.store, lastCommand, result } }
        | .command cmd op => { t with running := some ⟨cmd, op, op.program services bufferSize⟩ }
      else { thread := { thread with phase := .waiting } }
    | .reading =>
      if thread.inputSize = bufferSize then { thread := thread.inputTooLarge bufferSize } else t
    | _ => t

/-- The task of a worker that has taken the key of a connection. The read of a channel that has been
closed throws at once. -/
def activate (connection : WorkThread σ) (memory : Memory) (inPtr : Int) : Task σ :=
  match connection.phase with
  | .closed | .exited => { thread := connection }
  | _ =>
    { thread :=
        { connection with phase := .reading, memory, inPtr, position := 0, inputSize := 0 } }

/-- The end of the inner try block is reached, by a return or a throw. -/
def Finishes (t : Task σ) : Prop :=
  t.running.isNone = true ∧
    (t.thread.phase = .waiting ∨ t.thread.phase = .closed ∨ t.thread.phase = .dead)

instance (t : Task σ) : Decidable t.Finishes := inferInstanceAs (Decidable (_ ∧ _))

end Task

/-- The server with its workers, the connections as the last worker has left each of them, and the
store. The calls of the store are kept with the connection, the state before and the state after
each, and the connections whose processing has thrown what is not caught inside are kept, too. -/
structure MemcarrotServer (κ σ : Type) (n : Nat) where
  handlers : RequestHandlers κ n := {}
  connections : κ → WorkThread σ
  tasks : Fin n → Task σ
  store : σ
  calls : List (κ × σ × σ) := []
  thrown : List κ := []

namespace MemcarrotServer

variable {κ σ : Type} {n : Nat}

/-- The server with a store, before any connection. -/
def start (s : σ) : MemcarrotServer κ σ n where
  connections _ := { store := s }
  tasks _ := { thread := { store := s } }
  store := s

/-- The selector thread selects a key or goes on, a worker goes on outside of the processing, with
an input buffer where it takes a key, or goes on by itself in the processing, or the channel of its
key is read, or it comes to the end of the processing, or there is no memory for its buffers. -/
inductive Event (κ : Type) (n : Nat) where
  | select (key : κ)
  | selector
  | worker (i : Fin n) (memory : Memory) (inPtr : Int)
  | work (i : Fin n)
  | read (i : Fin n) (bytes : List UInt8)
  | readNothing (i : Fin n)
  | hangUp (i : Fin n)
  | finish (i : Fin n)
  | outOfMemory (i : Fin n)

variable [DecidableEq κ]

def setTask (st : MemcarrotServer κ σ n) (i : Fin n) (t : Task σ) : MemcarrotServer κ σ n :=
  { st with tasks := update st.tasks i t }

/-- An event of the channel of the connection that a worker processes. -/
def channelStep (services : Services σ) (bufferSize : Nat) (st : MemcarrotServer κ σ n) (i : Fin n)
    (e : WorkThread.Event) : Option (MemcarrotServer κ σ n) :=
  match st.handlers.workers i, (st.tasks i).running with
  | .process _, none =>
    ((st.tasks i).thread.step services bufferSize e).map fun thread => st.setTask i { thread }
  | _, _ => none

/-- A call of the store, or what the worker does between such calls. -/
def workStep (services : Services σ) (bufferSize : Nat) (st : MemcarrotServer κ σ n) (i : Fin n) :
    Option (MemcarrotServer κ σ n) :=
  match st.handlers.workers i with
  | .process key =>
    match (st.tasks i).running with
    | some ⟨cmd, op, .call c next⟩ =>
      let (answer, store) := services.support.object c st.store
      some { st.setTask i { st.tasks i with running := some ⟨cmd, op, next answer⟩ } with
        store, calls := st.calls ++ [(key, st.store, store)] }
    | _ => some (st.setTask i ((st.tasks i).advance services bufferSize))
  | _ => none

/-- The state after an event, if it is possible before a shutdown. -/
def step (services : Services σ) (bufferSize : Nat) (st : MemcarrotServer κ σ n) :
    Event κ n → Option (MemcarrotServer κ σ n)
  | .select key =>
    match st.handlers.selector with
    | .select => some { st with handlers := { st.handlers with selector := .inUse key } }
    | _ => none
  | .selector => some { st with handlers := st.handlers.selectorStep }
  | .worker i memory inPtr =>
    let next := { st with handlers := st.handlers.workerStep i }
    match st.handlers.workers i, st.handlers.nextKey i with
    | .waitForKey, some key =>
      if 0 < inPtr then some (next.setTask i (.activate (st.connections key) memory inPtr))
      else none
    | _, _ => some next
  | .work i => st.workStep services bufferSize i
  | .read i bytes => st.channelStep services bufferSize i (.read bytes)
  | .readNothing i => st.channelStep services bufferSize i .readNothing
  | .hangUp i => st.channelStep services bufferSize i .hangUp
  | .finish i =>
    match st.handlers.workers i with
    | .process key =>
      let thread := (st.tasks i).thread
      if (st.tasks i).Finishes then
        let thrown := decide (thread.phase = .dead)
        some { st with
          handlers := { st.handlers with
            workers := update st.handlers.workers i (.release key thrown) }
          connections := update st.connections key thread
          thrown := if thrown then st.thrown ++ [key] else st.thrown }
      else none
    | _ => none
  | .outOfMemory i =>
    (st.handlers.outOfMemory i).map fun handlers => { st with handlers }

end MemcarrotServer

end Memcarrot
