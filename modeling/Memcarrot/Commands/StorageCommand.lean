import Memcarrot.Commands.Fields

open Incremental RawMemory

namespace Memcarrot

open Utils

namespace StorageCommand

/-- The statements under `if (isCAS)`: the cas value and the offset where its token ends. -/
def casField (U : CacheUtils) (cls : CommandClass) (inBuffer bufferSize stop : Int) :
    Access Thrown (Int × Int) :=
  if cls.isCAS then do
    let (start, stop) ← nextField inBuffer bufferSize stop "4 malformed request"
    let cas ← strToLongDirect U (inBuffer + start) (stop - start)
    return (cas, stop)
  else return (0, stop)

def parse (U : CacheUtils) (cls : CommandClass) (inBuffer bufferSize : Int) :
    Access Thrown MemcachedCommand :=
  Access.rethrow (catchNumberFormat "not a number") do
    let keyPtr := inBuffer
    -- the result is not tested: it is -1 where the key has not ended yet
    let stop ← nextTokenEnd inBuffer bufferSize
    let keySize := stop
    let (start, stop) ← nextField inBuffer bufferSize stop "1 malformed request"
    let flags ← strToLongDirect U (inBuffer + start) (stop - start)
    throwIf (flags > 0xffffffff ∨ flags < 0) "flags is not 32 - bit unsigned"
    let (start, stop) ← nextField inBuffer bufferSize stop "2 malformed request"
    let exptime ← strToLongDirect U (inBuffer + start) (stop - start)
    let (start, stop) ← nextField inBuffer bufferSize stop "3 malformed request"
    let v ← strToLongDirect U (inBuffer + start) (stop - start)
    throwIf (v > 2 ^ 31 - 1 ∨ v < 0) ("illegal value size: " ++ toString v)
    let valSize := v
    let (cas, stop) ← casField U cls inBuffer bufferSize stop
    let (noreply, stop) ← lineEnd U inBuffer bufferSize stop "'\\r\\n' was expected"
    let valPtr := inBuffer + stop
    returnFalseIf (valSize > bufferSize - stop - 2)
    return { cls, keyPtr, keySize, valPtr, valSize, flags, exptime, cas, noreply,
             consumed := valSize + stop + 2 }

end StorageCommand

end Memcarrot
