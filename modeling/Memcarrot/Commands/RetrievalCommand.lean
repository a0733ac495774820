import Memcarrot.Commands.Fields

open Incremental RawMemory

namespace Memcarrot

open Utils

namespace RetrievalCommand

/-- The loop of `calculateNumberOfKeys`. Every round passes at least one byte of the buffer, so
the size of the buffer bounds the number of rounds. -/
def countLoop (inBuffer inBufferSize : Int) : Nat → Int → Int → Access Thrown Int
  | 0, _, _ => .throw .runaway
  | fuel + 1, stop, count => do
    let b ← .byte (inBuffer + stop)
    if b ≠ CR ∧ stop < inBufferSize then
      let start ← nextTokenStart (inBuffer + stop) (inBufferSize - stop)
      if start < 0 then return -1
      else
        let start := start + stop
        let size ← nextTokenEnd (inBuffer + start) (inBufferSize - start)
        if size < 0 then return -1
        else
          let stop := size + start
          if stop = start then return count
          else countLoop inBuffer inBufferSize fuel stop (count + 1)
    else return count

def calculateNumberOfKeys (inBuffer inBufferSize : Int) : Access Thrown Int :=
  countLoop inBuffer inBufferSize (inBufferSize.toNat + 1) 0 0

/-- The statements under `if (isTouch)`: the expiration time and the offset where its token
ends. -/
def exptimeField (U : CacheUtils) (cls : CommandClass) (inBuffer bufferSize : Int) :
    Access Thrown (Int × Int) :=
  if cls.isTouch then do
    let start ← nextTokenStart inBuffer bufferSize
    returnFalseIf (start < 0)
    let size ← nextTokenEnd (inBuffer + start) (bufferSize - start)
    returnFalseIf (size < 0)
    throwIfEquals size 0 "malformed request"
    let stop := size + start
    let exptime ← strToLongDirect U (inBuffer + start) (stop - start)
    return (exptime, stop)
  else return (0, 0)

/-- The loop that fills `keys` and `keySizes`: `left` keys are missing and `i` are there. -/
def keysLoop (inBuffer bufferSize : Int) : Nat → Nat → Int → Access Thrown (List Slice × Int)
  | 0, _, stop => return ([], stop)
  | left + 1, i, stop => do
    let start ← nextTokenStart (inBuffer + stop) (bufferSize - stop)
    returnFalseIf (start < 0)
    throwIf (i ≠ 0 ∧ start ≠ 1) "malformed request"
    let start := start + stop
    let size ← nextTokenEnd (inBuffer + start) (bufferSize - start)
    returnFalseIf (size < 0)
    throwIfEquals size 0 "malformed request"
    let stop := size + start
    let (keys, last) ← keysLoop inBuffer bufferSize left (i + 1) stop
    return (⟨inBuffer + start, stop - start⟩ :: keys, last)

def parse (U : CacheUtils) (cls : CommandClass) (inBuffer bufferSize : Int) :
    Access Thrown MemcachedCommand :=
  Access.rethrow (catchNumberFormat "not a number") do
    let count ← calculateNumberOfKeys inBuffer bufferSize
    returnFalseIf (count < 0)
    let count := if cls.isTouch then count - 1 else count
    -- new long[count]
    if count < 0 then .throw .negativeArraySize
    else
      let (exptime, stop) ← exptimeField U cls inBuffer bufferSize
      let (keys, stop) ← keysLoop inBuffer bufferSize count.toNat 0 stop
      let stop ← skipCRLF inBuffer bufferSize stop "'\r\n' was expected"
      return { cls, keys, exptime, consumed := stop }

end RetrievalCommand

end Memcarrot
