import Memcarrot.Commands.RetrievalLoop
import Memcarrot.RawMemory.Tracked
import Memcarrot.Retrieval.Answers

open RawMemory

namespace Memcarrot

open RetrievalCommand (RecordWrite Loop)

/-- `Utils.longToStrDirect`, which is not a part of this repository: it puts the characters of a
long into the space behind an address and returns how many. -/
abbrev LongWrite := Int → Int → Int → Memory → Int × Memory

/-- How a call ends that writes to the output buffer: it returns a length, throws, ends the process,
or does not end. -/
inductive Returned where
  | length (n : Int)
  | bufferOverflow
  | uncaught (e : Thrown)
  | exit
  | unfinished
  deriving DecidableEq, Repr

/-- A call that writes to the output buffer: the store and memory after it, what the consumer was
given, and its end. -/
structure Written (σ : Type) where
  store : σ
  output : Tracked
  chunks : List (List UInt8) := []
  returned : Returned

variable {σ : Type}

/-- The response that a command has chosen is copied to the output buffer. -/
def Executed.copyTo (outBuffer : Int) (executed : Executed σ) (o : Tracked) : Written σ :=
  { store := executed.store
    output :=
      match executed.outcome with
      | .response (b :: bytes) => o.copy (b :: bytes) outBuffer
      | _ => o
    chunks := executed.chunks
    returned :=
      match executed.outcome with
      | .response bytes => .length bytes.length
      | .bufferOverflow => .bufferOverflow
      | .exit => .exit }

def crlf (ptr : Int) (o : Tracked) : Tracked := (o.putByte CR ptr).putByte LF (ptr + 1)

def ok (ptr : Int) (o : Tracked) : Tracked :=
  (((o.putByte 0x4F ptr).putByte 0x4B (ptr + 1)).putByte CR (ptr + 2)).putByte LF (ptr + 3)

namespace RetrievalCommand

/-- The ranges in which the rounds of `run` write: what is left of the output buffer for each record
and the place of END. -/
def Loop.ranges (fetch : List UInt8 → σ → Record × σ) (write : RecordWrite) (isCAS : Bool)
    (outBuffer outBufferSize : Int) (keys : List (List UInt8)) : Nat → Loop σ → List Range
  | 0, _ => []
  | fuel + 1, loop =>
    match keys[loop.i]? with
    | none => [⟨outBuffer + loop.outSize, END.length⟩]
    | some key =>
      (if (fetch key loop.store).1.value = none then []
        else [⟨outBuffer + loop.outSize, outBufferSize - loop.outSize⟩]) ++
      match loop.body fetch write isCAS outBuffer outBufferSize key with
      | .ok loop => ranges fetch write isCAS outBuffer outBufferSize keys fuel loop
      | .error _ => []

/-- The execute of the retrieval commands, which repeats the round for a key at most once. -/
def executeAt (support : Memcached σ) (write : RecordWrite) (outBuffer outBufferSize : Int)
    (op : Operation) (s : σ) (o : Tracked) : Written σ :=
  let rounds := 2 * op.keys.length + 1
  let loop : Loop σ := { memory := o.memory, store := s }
  match op.retrieve support write outBuffer outBufferSize rounds loop with
  | some (last, outcome) =>
    let ranges := loop.ranges (op.fetch support) write op.cls.isCAS outBuffer outBufferSize op.keys
      rounds
    { store := last.store
      output := o.call ranges last.memory
      chunks := last.chunks
      returned :=
        match outcome with
        | .response _ => .length last.outSize
        | .bufferOverflow => .bufferOverflow
        | .exit => .exit }
  | none => { store := s, output := o, returned := .unfinished }

end RetrievalCommand

/-- The execute of INCR and DECR. -/
def INCR.executeAt (U : CacheUtils) (writeLong : LongWrite)
    (count : List UInt8 → Int → σ → Counted × σ) (outBuffer outBufferSize : Int) (op : Operation)
    (s : σ) (o : Tracked) : Written σ :=
  match (count op.key op.value s).1 with
  | .value result =>
    if !op.noreply && result ≥ 0 then
      let (size, memory) := writeLong outBuffer outBufferSize result o.memory
      let o := o.call [⟨outBuffer, outBufferSize⟩] memory
      { store := (count op.key op.value s).2
        output := crlf (outBuffer + size) o
        returned := .length (size + 2) }
    else (INCR.execute U count op s).copyTo outBuffer o
  | _ => (INCR.execute U count op s).copyTo outBuffer o

def FLUSH_ALL.executeAt (support : Memcached σ) (outBuffer : Int) (op : Operation) (s : σ)
    (o : Tracked) : Written σ :=
  let s := support.flushAll op.delay s
  if op.noreply then { store := s, output := o, returned := .length 0 }
  else { store := s, output := ok outBuffer o, returned := .length 4 }

/-- The version stands for the bytes that are copied of it, as many as it has chars. -/
def VERSION.executeAt (version : Option (List UInt8)) (outBuffer : Int) (s : σ) (o : Tracked) :
    Written σ :=
  let version := version.getD (ascii "unknown")
  let len : Int := version.length
  let o := o.copy (ascii "VERSION ") outBuffer
  let o := o.copy version (outBuffer + 8)
  let o := o.copy CRLF (outBuffer + 8 + len)
  { store := s, output := o, returned := .length (FLUSH_ALL.toInt (10 + len)) }

namespace STATS

/-- Copies bytes behind the `off` that are in the output buffer, and moves `off`. -/
def append (outBuffer : Int) (bytes : List UInt8) : Int × Tracked → Int × Tracked
  | (off, o) => (FLUSH_ALL.toInt (off + bytes.length), o.copy bytes (outBuffer + off))

/-- The loop over the names and values. -/
def loop (outBuffer : Int) : List (List UInt8 × List UInt8) → Int × Tracked → Int × Tracked
  | [], appended => appended
  | (name, value) :: stats, appended =>
    let appended := append outBuffer (ascii "STAT ") appended
    let appended := append outBuffer name appended
    let appended := append outBuffer [SP] appended
    let appended := append outBuffer value appended
    loop outBuffer stats (append outBuffer CRLF appended)

def executeAt (support : Memcached σ) (outBuffer : Int) (s : σ) (o : Tracked) : Written σ :=
  let (off, o) := append outBuffer END (loop outBuffer (support.stats s) (0, o))
  { store := s, output := o, returned := .length off }

end STATS

/-- The execute method of each class, with the address of the output buffer. -/
def Operation.executeAt (services : Services σ) (write : RecordWrite) (writeLong : LongWrite)
    (outBuffer outBufferSize : Int) (op : Operation) (s : σ) (o : Tracked) : Written σ :=
  let support := services.support
  match op.cls with
  | .GET | .GETS | .GAT | .GATS =>
    RetrievalCommand.executeAt support write outBuffer outBufferSize op s o
  | .INCR =>
    INCR.executeAt services.utils writeLong support.incr outBuffer outBufferSize op s o
  | .DECR =>
    INCR.executeAt services.utils writeLong support.decr outBuffer outBufferSize op s o
  | .FLUSH_ALL => FLUSH_ALL.executeAt support outBuffer op s o
  | .VERSION => VERSION.executeAt services.version outBuffer s o
  | .STATS => STATS.executeAt support outBuffer s o
  | _ => (op.execute services outBufferSize s).copyTo outBuffer o

end Memcarrot
