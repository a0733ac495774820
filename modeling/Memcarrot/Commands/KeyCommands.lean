import Memcarrot.Commands.Fields

open Incremental RawMemory

namespace Memcarrot

open Utils

/-- The parse of INCR and TOUCH, which differ in the field they set and in a message. -/
def parseKeyNumber (U : CacheUtils) (inBuffer bufferSize : Int) (msg : String)
    (command : Int → Int → Int → Bool → Int → MemcachedCommand) :
    Access Thrown MemcachedCommand :=
  Access.rethrow (catchNumberFormat "not a number") do
    let keyPtr := inBuffer
    let stop ← nextTokenEnd inBuffer bufferSize
    returnFalseIf (stop ≤ 0)
    let keySize := stop
    let (start, stop) ← nextField inBuffer bufferSize stop "malformed request"
    let number ← strToLongDirect U (inBuffer + start) (stop - start)
    let (noreply, stop) ← lineEnd U inBuffer bufferSize stop msg
    return command keyPtr keySize number noreply stop

/-- INCR and, by inheritance, DECR. -/
def INCR.parse (U : CacheUtils) (cls : CommandClass) (inBuffer bufferSize : Int) :
    Access Thrown MemcachedCommand :=
  parseKeyNumber U inBuffer bufferSize "'\r\n' was expected"
    fun keyPtr keySize value noreply consumed =>
      { cls, keyPtr, keySize, value, noreply, consumed }

def TOUCH.parse (U : CacheUtils) (inBuffer bufferSize : Int) : Access Thrown MemcachedCommand :=
  parseKeyNumber U inBuffer bufferSize "'\\r\\n' was expected"
    fun keyPtr keySize exptime noreply consumed =>
      { cls := .TOUCH, keyPtr, keySize, exptime, noreply, consumed }

def DELETE.parse (U : CacheUtils) (inBuffer bufferSize : Int) :
    Access Thrown MemcachedCommand := do
  let keyPtr := inBuffer
  let stop ← nextTokenEnd inBuffer bufferSize
  returnFalseIf (stop ≤ 0)
  let keySize := stop
  let (noreply, stop) ← lineEnd U inBuffer bufferSize stop "'\r\n' was expected"
  return { cls := .DELETE, keyPtr, keySize, noreply, consumed := stop }

end Memcarrot
