import Mathlib.Logic.Relation
import Memcarrot.RawMemory.Write
import Memcarrot.Server.CommandProcessor

open RawMemory

namespace Memcarrot

namespace Errors

def INPUT_TOO_LARGE : List UInt8 :=
  ascii ("CLIENT_ERROR Input is too large, " ++
    "increase value of 'kv.size.max' configuration option\r\n")

def OUTPUT_TOO_LARGE : List UInt8 :=
  ascii ("SERVER_ERROR Command result is too large, " ++
    "increase value of 'kv.size.max' configuration option\r\n")

end Errors

/-- Where the run of the thread that has the selection key of a connection stands: the key is
released, at the top of the outer loop, in the loop over the requests, at the end with a closed
channel, ended by a Throwable, which releases the key but leaves the channel as it is, or with the
process. -/
inductive Phase where
  | waiting | reading | processing | closed | dead | exited
  deriving DecidableEq, Repr

namespace Phase

/-- The channel is open, and the thread has not ended. -/
def isOpen : Phase → Bool
  | waiting | reading | processing => true
  | closed | dead | exited => false

end Phase

/-- The state of `run` for one connection, which may be served by different threads one after the
other: the input buffer at `inPtr` with the position of `in`, and the local variables. What was
read from the channel, executed and written to the channel is kept as well. -/
structure WorkThread (σ : Type) where
  phase : Phase := .waiting
  memory : Memory := fun _ => 0
  inPtr : Int := 0
  position : Nat := 0
  inputSize : Nat := 0
  consumed : Int := 0
  store : σ
  received : List UInt8 := []
  executed : List Operation := []
  written : List UInt8 := []

namespace WorkThread

variable {σ : Type}

/-- Puts OUTPUT_TOO_LARGE into the output buffer and writes it. The channel stays open. -/
def outputTooLarge (bufferSize : Nat) (st : WorkThread σ) : WorkThread σ :=
  if Errors.OUTPUT_TOO_LARGE.length ≤ bufferSize then
    { st with written := st.written ++ Errors.OUTPUT_TOO_LARGE, phase := .waiting }
  else { st with phase := .dead }

def inputTooLarge (bufferSize : Nat) (st : WorkThread σ) : WorkThread σ :=
  if Errors.INPUT_TOO_LARGE.length ≤ bufferSize then
    { st with written := st.written ++ Errors.INPUT_TOO_LARGE, phase := .closed }
  else outputTooLarge bufferSize st

/-- Moves what is not consumed to the start of the input buffer and goes on with reading. -/
def compact (st : WorkThread σ) : WorkThread σ :=
  if st.consumed > 0 then
    let size := (st.inputSize - st.consumed).toNat
    { st with
      memory := st.memory.write st.inPtr (st.memory.slice (st.inPtr + st.consumed) size)
      inputSize := size
      position := size
      phase := .reading }
  else { st with phase := .reading }

/-- Writes a response and passes over the request. `out.limit` fails if the response is longer
than the output buffer. -/
def respond (bufferSize : Nat) (bytes : List UInt8) (lastCommand : Option MemcachedCommand)
    (st : WorkThread σ) : WorkThread σ :=
  if bytes.length > bufferSize then { st with phase := .dead }
  else
    let st := { st with written := st.written ++ bytes }
    match lastCommand with
    | none => { st with phase := .closed }
    | some cmd =>
      let st := { st with consumed := st.consumed + cmd.inputConsumed }
      if cmd.cls = .QUIT then { st with phase := .closed } else st

/-- One round of the loop over the requests, or its end, which releases the key. -/
def round (services : Services σ) (bufferSize : Nat) (st : WorkThread σ) : WorkThread σ :=
  if st.consumed < st.inputSize then
    let p := CommandProcessor.process services st.memory (st.inPtr + st.consumed)
      (st.inputSize - st.consumed) bufferSize st.store
    let st := { st with
      store := p.store
      executed := st.executed ++ p.executed.toList
      written := st.written ++ p.chunks.flatten }
    match p.result with
    | .incomplete => st.compact
    | .response bytes => st.respond bufferSize bytes p.lastCommand
    | .bufferOverflow => st.outputTooLarge bufferSize
    | .exit => { st with phase := .exited }
    | .uncaught _ => { st with phase := .dead }
  else { st with phase := .waiting }

/-- What the thread does without the channel: a round, or the answer to a full input buffer. -/
def advance (services : Services σ) (bufferSize : Nat) (st : WorkThread σ) : WorkThread σ :=
  match st.phase with
  | .processing => st.round services bufferSize
  | .reading => if st.inputSize = bufferSize then st.inputTooLarge bufferSize else st
  | _ => st

/-- A thread takes the key, with any contents of its input buffer, the channel is read with more
than zero bytes, with none before the timeout, or without success, or the thread goes on by
itself. -/
inductive Event where
  | activate (memory : Memory) (inPtr : Int)
  | read (bytes : List UInt8)
  | readNothing
  | hangUp
  | advance

/-- A read of the channel is reached, and may put as many bytes into the input buffer. -/
def MayRead (bufferSize : Nat) (st : WorkThread σ) (num : Nat) : Prop :=
  st.phase = .reading ∧ st.inputSize ≠ bufferSize ∧ st.position + num ≤ bufferSize

instance (bufferSize : Nat) (st : WorkThread σ) (num : Nat) : Decidable (st.MayRead bufferSize num) :=
  inferInstanceAs (Decidable (_ ∧ _ ∧ _))

/-- The state after an event, if it is possible. A thread that a Throwable has ended makes no
further step: the next one that takes the key begins as on a new connection. -/
def step (services : Services σ) (bufferSize : Nat) (st : WorkThread σ) :
    Event → Option (WorkThread σ)
  | .activate memory inPtr =>
    if st.phase = .waiting ∧ 0 < inPtr then
      some { st with phase := .reading, memory, inPtr, position := 0, inputSize := 0 }
    else none
  | .read bytes =>
    if bytes ≠ [] ∧ st.MayRead bufferSize bytes.length then
      some { st with
        memory := st.memory.write (st.inPtr + st.position) bytes
        position := st.position + bytes.length
        inputSize := st.inputSize + bytes.length
        consumed := 0
        received := st.received ++ bytes
        phase := .processing }
    else none
  | .readNothing => if st.MayRead bufferSize 0 then some st else none
  | .hangUp => if st.MayRead bufferSize 0 then some { st with phase := .closed } else none
  | .advance => some (st.advance services bufferSize)

/-- The received bytes in the input buffer that no command has consumed. -/
def unconsumed (st : WorkThread σ) : List UInt8 :=
  match st.phase with
  | .reading => st.memory.slice st.inPtr st.inputSize
  | .processing => st.memory.slice (st.inPtr + st.consumed) (st.inputSize - st.consumed).toNat
  | _ => []

/-- A run on a connection whose events are all of the given kind. -/
def Runs (services : Services σ) (bufferSize : Nat) (kind : Event → Prop) :
    WorkThread σ → WorkThread σ → Prop :=
  Relation.ReflTransGen fun st st' => ∃ e, kind e ∧ st.step services bufferSize e = some st'

end WorkThread

end Memcarrot
