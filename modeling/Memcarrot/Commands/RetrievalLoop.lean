import Memcarrot.Commands.Execute
import Memcarrot.RawMemory.Write

open RawMemory

namespace Memcarrot

namespace RetrievalCommand

/-- `Record.write`, which is not a part of this repository: it puts the encoding of a record for a
key into the space behind an address, with the cas value or not, and returns its size. -/
abbrev RecordWrite := Record → List UInt8 → Int → Int → Bool → Memory → Int × Memory

/-- The variables of the loop over the keys in `execute`, with the memory and the store. What the
consumer was given and the positions for which the store was called are kept as well. -/
structure Loop (σ : Type) where
  i : Nat := 0
  outSize : Int := 0
  memory : Memory
  store : σ
  chunks : List (List UInt8) := []
  calls : List Nat := []

namespace Loop

variable {σ : Type}

/-- The body of the loop: the state with which it goes on, or in which it throws. After
`i--; continue` the loop goes on with the same position. -/
def body (fetch : List UInt8 → σ → Record × σ) (write : RecordWrite) (isCAS : Bool)
    (outBuffer outBufferSize : Int) (key : List UInt8) (loop : Loop σ) : Except (Loop σ) (Loop σ) :=
  let (r, store) := fetch key loop.store
  let loop := { loop with store, calls := loop.calls ++ [loop.i] }
  if r.value = none then .ok { loop with i := loop.i + 1 }
  else
    let (size, memory) := write r key (outBuffer + loop.outSize) (outBufferSize - loop.outSize)
      isCAS loop.memory
    let loop := { loop with memory }
    if size > outBufferSize - loop.outSize - 5 /- END\r\n -/ then
      if loop.outSize > 0 then
        .ok { loop with
          chunks := loop.chunks ++ [memory.slice outBuffer loop.outSize.toNat]
          outSize := 0 }
      else .error loop
    else .ok { loop with outSize := loop.outSize + size, i := loop.i + 1 }

/-- Puts END behind the records. -/
def finish (outBuffer : Int) (loop : Loop σ) : Loop σ :=
  { loop with
    memory := loop.memory.write (outBuffer + loop.outSize) END
    outSize := loop.outSize + 5 }

/-- The loop with what follows it, with the response in the output buffer. -/
def run (fetch : List UInt8 → σ → Record × σ) (write : RecordWrite) (isCAS : Bool)
    (outBuffer outBufferSize : Int) (keys : List (List UInt8)) :
    Nat → Loop σ → Option (Loop σ × Outcome)
  | 0, _ => none
  | fuel + 1, loop =>
    match keys[loop.i]? with
    | none =>
      let loop := loop.finish outBuffer
      some (loop, .response (loop.memory.slice outBuffer loop.outSize.toNat))
    | some key =>
      match loop.body fetch write isCAS outBuffer outBufferSize key with
      | .ok loop => run fetch write isCAS outBuffer outBufferSize keys fuel loop
      | .error loop => some (loop, .bufferOverflow)

end Loop

end RetrievalCommand

open RetrievalCommand

variable {σ : Type}

def GET.execute (support : Memcached σ) (write : RecordWrite) (outBuffer outBufferSize : Int)
    (op : Operation) (fuel : Nat) (loop : Loop σ) : Option (Loop σ × Outcome) :=
  loop.run support.get write op.cls.isCAS outBuffer outBufferSize op.keys fuel

def GETS.execute (support : Memcached σ) (write : RecordWrite) (outBuffer outBufferSize : Int)
    (op : Operation) (fuel : Nat) (loop : Loop σ) : Option (Loop σ × Outcome) :=
  loop.run support.gets write op.cls.isCAS outBuffer outBufferSize op.keys fuel

def GAT.execute (support : Memcached σ) (write : RecordWrite) (outBuffer outBufferSize : Int)
    (op : Operation) (fuel : Nat) (loop : Loop σ) : Option (Loop σ × Outcome) :=
  loop.run (fun key => support.gat key op.exptime) write op.cls.isCAS outBuffer outBufferSize
    op.keys fuel

def GATS.execute (support : Memcached σ) (write : RecordWrite) (outBuffer outBufferSize : Int)
    (op : Operation) (fuel : Nat) (loop : Loop σ) : Option (Loop σ × Outcome) :=
  loop.run (fun key => support.gats key op.exptime) write op.cls.isCAS outBuffer outBufferSize
    op.keys fuel

/-- The execute method of each retrieval class. -/
def Operation.retrieve (support : Memcached σ) (write : RecordWrite) (outBuffer outBufferSize : Int)
    (op : Operation) : Nat → Loop σ → Option (Loop σ × Outcome) :=
  match op.cls with
  | .GETS => GETS.execute support write outBuffer outBufferSize op
  | .GAT => GAT.execute support write outBuffer outBufferSize op
  | .GATS => GATS.execute support write outBuffer outBufferSize op
  | _ => GET.execute support write outBuffer outBufferSize op

end Memcarrot
