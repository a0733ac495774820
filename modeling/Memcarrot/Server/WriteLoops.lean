import Memcarrot.Server.WorkThread
import Memcarrot.Util.Attempts

namespace Memcarrot

/-- The attempts to write to a channel, which takes a byte after finitely many of them or throws,
and throws on once it has thrown. -/
structure Channel where
  attempt : Nat → Attempt
  progresses : ∀ i, ∃ j, i ≤ j ∧ attempt j ≠ .accepts 0
  keepsThrowing : ∀ i, attempt i = .throws → attempt (i + 1) = .throws

/-- What a read of a channel meets: bytes, of which it takes as many as there is room for, nothing
before or after the timeout, the end of the stream or an IOException. -/
inductive ReadResult where
  | bytes (bytes : List UInt8)
  | nothing
  | timeout
  | endOfStream
  | ioException
  deriving DecidableEq, Repr

/-- The loops that write a response: `consume`, and those of `run` for a response, for
INPUT_TOO_LARGE and, in the handler of BufferOverflowException, for OUTPUT_TOO_LARGE. -/
inductive WriteLoop where
  | consume | reply | inputTooLarge | outputTooLarge
  deriving DecidableEq, Repr

/-- The IOException of a write is caught inside of the loop. -/
def WriteLoop.catches : WriteLoop → Bool
  | consume | reply | inputTooLarge => false
  | outputTooLarge => true

structure Output where
  loop : WriteLoop
  bytes : List UInt8
  deriving DecidableEq, Repr

namespace WorkThread

variable {σ : Type}

/-- What `outputTooLarge` writes. -/
def tooLargeOutputs (bufferSize : Nat) : List Output :=
  if Errors.OUTPUT_TOO_LARGE.length ≤ bufferSize then
    [⟨.outputTooLarge, Errors.OUTPUT_TOO_LARGE⟩]
  else []

/-- What `advance` writes, loop after loop. -/
def outputs (services : Services σ) (bufferSize : Nat) (st : WorkThread σ) : List Output :=
  match st.phase with
  | .processing =>
    if st.consumed < st.inputSize then
      let p := CommandProcessor.process services st.memory (st.inPtr + st.consumed)
        (st.inputSize - st.consumed) bufferSize st.store
      p.chunks.map (Output.mk .consume) ++
        match p.result with
        | .response bytes => if bytes.length > bufferSize then [] else [⟨.reply, bytes⟩]
        | .bufferOverflow => tooLargeOutputs bufferSize
        | _ => []
    else []
  | .reading =>
    if st.inputSize = bufferSize then
      if Errors.INPUT_TOO_LARGE.length ≤ bufferSize then
        [⟨.inputTooLarge, Errors.INPUT_TOO_LARGE⟩]
      else tooLargeOutputs bufferSize
    else []
  | _ => []

end WorkThread

/-- Where `run` stands with a key: in the outer loop or at its end, in a loop that writes, with what
is written after it and the state to go on with, in the finally block, by an exception that is not
caught or not, or ended with the process. -/
inductive Activity (σ : Type) where
  | running (thread : WorkThread σ)
  | writing (loop : WriteLoop) (remaining : List UInt8) (todo : List Output)
      (next : WorkThread σ)
  | released (thrown : Bool)
  | exited

/-- Goes on with outputs. -/
def Activity.write {σ : Type} (todo : List Output) (next : WorkThread σ) : Activity σ :=
  match todo with
  | [] => .running next
  | output :: todo => .writing output.loop output.bytes todo next

/-- The activity of a thread with a key, the number of attempts to write that it has made, and what
its reads will meet. Where nothing is left they meet the timeout. -/
structure Serving (σ : Type) where
  activity : Activity σ
  attempts : Nat := 0
  reads : List ReadResult

namespace Serving

variable {σ : Type}

/-- The thread at the top of the outer loop, with its input buffer at an address. -/
def start (memory : RawMemory.Memory) (inPtr : Int) (store : σ) (reads : List ReadResult) :
    Serving σ :=
  { activity := .running { phase := .reading, memory, inPtr, store }, reads }

/-- A read of the channel. -/
def read (services : Services σ) (bufferSize : Nat) (thread : WorkThread σ) (s : Serving σ) :
    Serving σ :=
  match s.reads with
  | .nothing :: reads => { s with reads }
  | .bytes bytes :: reads =>
    let room := bufferSize - thread.position
    match thread.step services bufferSize (.read (bytes.take room)) with
    | some thread =>
      { s with
        activity := .running thread
        reads := if bytes.length ≤ room then reads else .bytes (bytes.drop room) :: reads }
    | none => { s with reads }
  | _ => { s with activity := .released false }

/-- The thread goes on without a read. -/
def advance (services : Services σ) (bufferSize : Nat) (thread : WorkThread σ) (s : Serving σ) :
    Serving σ :=
  let outputs := thread.outputs services bufferSize
  { s with activity := .write outputs (thread.advance services bufferSize) }

/-- What the thread does next. Where it closes the channel, `close()` itself throws nothing: from
the catch of an IOException such a Throwable would end the thread. -/
def step (services : Services σ) (bufferSize : Nat) (channel : Channel) (s : Serving σ) :
    Serving σ :=
  match s.activity with
  | .running thread =>
    match thread.phase with
    | .waiting | .closed => { s with activity := .released false }
    | .dead => { s with activity := .released true }
    | .exited => { s with activity := .exited }
    | .processing => s.advance services bufferSize thread
    | .reading =>
      if thread.inputSize = bufferSize then s.advance services bufferSize thread
      else s.read services bufferSize thread
  | .writing _ [] todo next => { s with activity := .write todo next }
  | .writing loop remaining todo next =>
    match channel.attempt s.attempts with
    | .accepts count =>
      { s with
        activity := .writing loop (remaining.drop count) todo next
        attempts := s.attempts + 1 }
    | .throws =>
      if loop.catches then { s with attempts := s.attempts + 1 }
      else { s with activity := .released false, attempts := s.attempts + 1 }
  | .released _ | .exited => s

end Serving

end Memcarrot
