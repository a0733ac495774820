import Memcarrot.Commands.OutputBuffer
import Memcarrot.Server.CommandProcessor

open Incremental RawMemory

namespace Memcarrot

open RetrievalCommand (RecordWrite)

/-- `process` with the addresses of both buffers. -/
def CommandProcessor.processAt {σ : Type} (services : Services σ) (write : RecordWrite)
    (writeLong : LongWrite) (m : Memory) (inputPtr inputSize outPtr outSize : Int) (s : σ) :
    Written σ :=
  let o : Tracked := { memory := m }
  match (CommandParser.parse services.utils inputPtr inputSize).run m with
  | .incomplete => { store := s, output := o, returned := .length (-1) }
  | .failed (.unsupportedCommand _) => (reply false (ascii "ERROR\r\n") s).copyTo outPtr o
  | .failed (.illegalFormat msg) =>
    (reply false (ascii ("CLIENT_ERROR " ++ msg ++ "\r\n")) s).copyTo outPtr o
  | .failed e => { store := s, output := o, returned := .uncaught e }
  | .done cmd =>
    if isMemorySafe cmd inputPtr inputSize then
      (cmd.operation m).executeAt services write writeLong outPtr outSize s o
    else (reply false INTERNAL_ERROR s).copyTo outPtr o

end Memcarrot
