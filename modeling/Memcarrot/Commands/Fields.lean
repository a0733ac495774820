import Memcarrot.Commands.MemcachedCommand

open Incremental RawMemory

namespace Memcarrot

open Utils

/-- `if (condition) return false;` -/
def returnFalseIf (condition : Prop) [Decidable condition] : Access Thrown Unit :=
  if condition then .incomplete else pure ()

/-- `if (condition) throw new IllegalFormatException(msg);` -/
def throwIf (condition : Prop) [Decidable condition] (msg : String) : Access Thrown Unit :=
  if condition then .throw (.illegalFormat msg) else pure ()

def throwIfNotEquals (n v : Int) (msg : String) : Access Thrown Unit := throwIf (n ≠ v) msg

def throwIfEquals (n v : Int) (msg : String) : Access Thrown Unit := throwIf (n = v) msg

/-- `catch (NumberFormatException e) { throw new IllegalFormatException(msg); }` -/
def catchNumberFormat (msg : String) : Thrown → Thrown
  | .numberFormat => .illegalFormat msg
  | e => e

def NOREPLY : List UInt8 := ascii "noreply"

/-- The statements by which the parsers move to the next token. From the offset `stop`, where
the last token ended, they skip exactly one space and find the end of the next token. The value
is the start and the end of that token, as offsets from `inBuffer`. -/
def nextField (inBuffer bufferSize stop : Int) (msg : String) : Access Thrown (Int × Int) := do
  let start ← nextTokenStart (inBuffer + stop) (bufferSize - stop)
  returnFalseIf (start ≤ 0)
  throwIfNotEquals start 1 msg
  let start := start + stop
  let size ← nextTokenEnd (inBuffer + start) (bufferSize - start)
  returnFalseIf (size ≤ 0)
  return (start, size + start)

/-- The test for the word noreply at the offset `start`. The value is the flag and the offset
from which the line is read on; another word that starts with n is left to the check of the line
end, as the exception made for it is not thrown. -/
def checkNoreply (U : CacheUtils) (inBuffer bufferSize start stop : Int) :
    Access Thrown (Bool × Int) := do
  let b ← .byte (inBuffer + start)
  if b = LOWER_N ∧ bufferSize - start ≥ 9 then
    let order ← compareTo U (inBuffer + start) 7 NOREPLY
    if order = 0 then return (true, start + 7) else return (false, stop)
  else if b = LOWER_N then .incomplete
  else return (false, stop)

/-- `// check noreply`, from the offset `stop` on. -/
def noreplyField (U : CacheUtils) (inBuffer bufferSize stop : Int) :
    Access Thrown (Bool × Int) := do
  let start ← nextTokenStart (inBuffer + stop) (bufferSize - stop)
  returnFalseIf (start < 0)
  checkNoreply U inBuffer bufferSize (start + stop) stop

/-- `// skip \r\n` -/
def skipCRLF (inBuffer bufferSize stop : Int) (msg : String) : Access Thrown Int := do
  returnFalseIf (stop > bufferSize - 2)
  let b ← .byte (inBuffer + stop)
  throwIf (b ≠ CR) msg
  let stop := stop + 1
  let b ← .byte (inBuffer + stop)
  throwIf (b ≠ LF) msg
  return stop + 1

/-- The rest of a command line behind its last required token: noreply and the line end. -/
def lineEnd (U : CacheUtils) (inBuffer bufferSize stop : Int) (msg : String) :
    Access Thrown (Bool × Int) := do
  let (noreply, stop) ← noreplyField U inBuffer bufferSize stop
  let stop ← skipCRLF inBuffer bufferSize stop msg
  return (noreply, stop)

end Memcarrot
