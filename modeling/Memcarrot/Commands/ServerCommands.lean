import Memcarrot.Commands.Fields

open Incremental RawMemory

namespace Memcarrot

open Utils

namespace FLUSH_ALL

/-- `(int) v` of a long. -/
def toInt (v : Int) : Int := v.bmod (2 ^ 32)

/-- The statements under `if (end > 0)`: the delay, noreply and the offset where the line is
read on. A word that starts with n is never read as a delay. -/
def arguments (U : CacheUtils) (inBuffer bufferSize stop : Int) :
    Access Thrown (Int × Bool × Int) := do
  let b ← .byte inBuffer
  if b ≠ LOWER_N then
    let v ← strToLongDirect U inBuffer stop
    let delay := toInt v
    throwIf (delay < 0) "delay is negative"
    let start ← nextTokenStart (inBuffer + stop) (bufferSize - stop)
    if start > 0 then
      let (noreply, stop) ← checkNoreply U inBuffer bufferSize (start + stop) stop
      return (delay, noreply, stop)
    else return (delay, false, stop)
  else
    let (noreply, stop) ← checkNoreply U inBuffer bufferSize 0 stop
    return (0, noreply, stop)

def parse (U : CacheUtils) (inBuffer bufferSize : Int) : Access Thrown MemcachedCommand :=
  Access.rethrow (catchNumberFormat "delay is not a number") do
    let stop ← nextTokenEnd inBuffer bufferSize
    returnFalseIf (stop = -1)
    let (delay, noreply, stop) ←
      (if stop > 0 then arguments U inBuffer bufferSize stop else pure (0, false, stop))
    let consumed := if stop = 0 then -1 else 0
    let stop ← skipCRLF inBuffer bufferSize stop "'\r\n' was expected"
    return { cls := .FLUSH_ALL, noreply, delay, consumed := consumed + stop }

end FLUSH_ALL

/-- The parse of QUIT, VERSION and SHUTDOWN, which look at the number of bytes only. -/
def parseTwoBytes (cls : CommandClass) (_inBuffer bufferSize : Int) :
    Access Thrown MemcachedCommand := do
  returnFalseIf (bufferSize ≠ 2)
  return { cls }

def QUIT.parse (inBuffer bufferSize : Int) : Access Thrown MemcachedCommand :=
  parseTwoBytes .QUIT inBuffer bufferSize

def VERSION.parse (inBuffer bufferSize : Int) : Access Thrown MemcachedCommand :=
  parseTwoBytes .VERSION inBuffer bufferSize

def SHUTDOWN.parse (inBuffer bufferSize : Int) : Access Thrown MemcachedCommand :=
  parseTwoBytes .SHUTDOWN inBuffer bufferSize

def STATS.parse (U : CacheUtils) (inBuffer bufferSize : Int) :
    Access Thrown MemcachedCommand := do
  returnFalseIf (bufferSize < 2)
  if bufferSize > 2 then .throw (.unsupportedCommand (ascii "STATS"))
  else
    let order ← compareTo U inBuffer 2 CRLF
    if order ≠ 0 then .throw (.unsupportedCommand (ascii "STATS"))
    else return { cls := .STATS }

def SAVE.parse (_inBuffer _bufferSize : Int) : Access Thrown MemcachedCommand := .incomplete

def BGSAVE.parse (_inBuffer _bufferSize : Int) : Access Thrown MemcachedCommand := .incomplete

end Memcarrot
