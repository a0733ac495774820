import Memcarrot.Commands.CommandParser
import Memcarrot.Commands.Execute

open Incremental RawMemory

namespace Memcarrot

/-- What `process` returns or throws: the bytes of the response in the output buffer, or none
where it returns -1, or one of the exceptions it does not catch. -/
inductive ProcessResult where
  | incomplete
  | response (bytes : List UInt8)
  | bufferOverflow
  | exit
  | uncaught (e : Thrown)
  deriving DecidableEq, Repr

/-- A call of `process`: the store after it, what the consumer was given, the thread local
`lastCommand`, what was executed and the result. -/
structure Processed (σ : Type) where
  store : σ
  chunks : List (List UInt8) := []
  lastCommand : Option MemcachedCommand := none
  executed : Option Operation := none
  result : ProcessResult

def Outcome.result : Outcome → ProcessResult
  | .response bytes => .response bytes
  | .bufferOverflow => .bufferOverflow
  | .exit => .exit

def INTERNAL_ERROR : List UInt8 := ascii "SERVER_ERROR internal error\r\n"

namespace CommandProcessor

def process {σ : Type} (services : Services σ) (m : Memory) (inputPtr inputSize outSize : Int)
    (s : σ) : Processed σ :=
  match (CommandParser.parse services.utils inputPtr inputSize).run m with
  | .incomplete => { store := s, result := .incomplete }
  | .failed (.unsupportedCommand _) => { store := s, result := .response (ascii "ERROR\r\n") }
  | .failed (.illegalFormat msg) =>
    { store := s, result := .response (ascii ("CLIENT_ERROR " ++ msg ++ "\r\n")) }
  | .failed e => { store := s, result := .uncaught e }
  | .done cmd =>
    if isMemorySafe cmd inputPtr inputSize then
      let op := cmd.operation m
      let run := op.execute services outSize s
      { store := run.store, chunks := run.chunks, lastCommand := some cmd, executed := some op
        result := run.outcome.result }
    else { store := s, lastCommand := some cmd, result := .response INTERNAL_ERROR }

end CommandProcessor

end Memcarrot
