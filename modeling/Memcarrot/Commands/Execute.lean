import Memcarrot.Commands.Fields
import Memcarrot.Commands.ServerCommands
import Memcarrot.Support.Memcached

open RawMemory

namespace Memcarrot

/-- A command with the bytes its addresses refer to. -/
structure Operation where
  cls : CommandClass
  key : List UInt8 := []
  data : List UInt8 := []
  keys : List (List UInt8) := []
  flags : Int := 0
  exptime : Int := 0
  cas : Int := 0
  value : Int := 0
  noreply : Bool := false
  delay : Int := 0
  deriving DecidableEq, Repr

/-- What a command reads through its addresses when it is executed. -/
def MemcachedCommand.operation (cmd : MemcachedCommand) (m : Memory) : Operation :=
  { cls := cmd.cls
    key := if cmd.cls.isAbstract && !cmd.cls.isRetrieval then m.slice cmd.keyPtr cmd.keySize.toNat
      else []
    data := if cmd.cls.isStorage then m.slice cmd.valPtr cmd.valSize.toNat else []
    keys := cmd.keys.map fun key => m.slice key.ptr key.size.toNat
    flags := cmd.flags
    exptime := cmd.exptime
    cas := cmd.cas
    value := cmd.value
    noreply := cmd.noreply
    delay := cmd.delay }

/-- How `execute` ends: with a response in the output buffer, of length zero where there is none,
by BufferOverflowException, or with the process. -/
inductive Outcome where
  | response (bytes : List UInt8)
  | bufferOverflow
  | exit
  deriving DecidableEq, Repr

/-- The run of `execute`: the store after it, the contents of the output buffer each time
`consumer.consume` is called, and the end. -/
structure Executed (σ : Type) where
  store : σ
  chunks : List (List UInt8)
  outcome : Outcome

/-- A response that is left out under noreply. -/
def reply {σ : Type} (noreply : Bool) (response : List UInt8) (store : σ) : Executed σ :=
  ⟨store, [], .response (if noreply then [] else response)⟩

def STORED : List UInt8 := ascii "STORED\r\n"

def NOT_STORED : List UInt8 := ascii "NOT_STORED\r\n"

def EXISTS : List UInt8 := ascii "EXISTS\r\n"

def NOT_FOUND : List UInt8 := ascii "NOT_FOUND\r\n"

def TOUCHED : List UInt8 := ascii "TOUCHED\r\n"

def DELETED : List UInt8 := ascii "DELETED\r\n"

def END : List UInt8 := ascii "END\r\n"

namespace StorageCommand

/-- The execute of the storage commands other than cas. -/
def execute {σ : Type} (store : List UInt8 → List UInt8 → Int → Int → σ → OpResult × σ)
    (op : Operation) (s : σ) : Executed σ :=
  let (result, s) := store op.key op.data (FLUSH_ALL.toInt op.flags) op.exptime s
  reply op.noreply (if result = .NOT_STORED then NOT_STORED else STORED) s

end StorageCommand

def CAS.execute {σ : Type} (support : Memcached σ) (op : Operation) (s : σ) : Executed σ :=
  let (result, s) := support.cas op.key op.data (FLUSH_ALL.toInt op.flags) op.exptime op.cas s
  reply op.noreply
    (match result with
    | .EXISTS => EXISTS
    | .NOT_FOUND => NOT_FOUND
    | .NOT_STORED => NOT_STORED
    | _ => STORED) s

namespace RetrievalCommand

/-- One round of the loop over the keys, with `outSize` bytes in the output buffer. -/
inductive Round where
  | absent
  | written (bytes : List UInt8)
  | full

def round {σ : Type} (fetch : List UInt8 → σ → Record × σ)
    (write : Record → List UInt8 → List UInt8) (outBufferSize : Int) (key : List UInt8)
    (outSize : Nat) (s : σ) : Round × σ :=
  let (r, s) := fetch key s
  if r.value = none then (.absent, s)
  else if ((write r key).length : Int) > outBufferSize - outSize - 5 /- END\r\n -/ then (.full, s)
  else (.written (write r key), s)

/-- The loop over the keys, where `out` is what the output buffer holds. Once the buffer has been
passed to the consumer it is empty, so that `i--` repeats the round for a key only once. -/
def executeLoop {σ : Type} (fetch : List UInt8 → σ → Record × σ)
    (write : Record → List UInt8 → List UInt8) (outBufferSize : Int) :
    List (List UInt8) → List UInt8 → σ → Executed σ
  | [], out, s => ⟨s, [], .response (out ++ END)⟩
  | key :: keys, out, s =>
    match round fetch write outBufferSize key out.length s with
    | (.absent, s) => executeLoop fetch write outBufferSize keys out s
    | (.written bytes, s) => executeLoop fetch write outBufferSize keys (out ++ bytes) s
    | (.full, s) =>
      if out.length > 0 then
        match round fetch write outBufferSize key 0 s with
        | (.absent, s) =>
          let rest := executeLoop fetch write outBufferSize keys [] s
          { rest with chunks := out :: rest.chunks }
        | (.written bytes, s) =>
          let rest := executeLoop fetch write outBufferSize keys bytes s
          { rest with chunks := out :: rest.chunks }
        | (.full, s) => ⟨s, [out], .bufferOverflow⟩
      else ⟨s, [], .bufferOverflow⟩

/-- The execute of the retrieval commands. -/
def execute {σ : Type} (support : Memcached σ) (fetch : List UInt8 → σ → Record × σ)
    (outBufferSize : Int) (op : Operation) (s : σ) : Executed σ :=
  executeLoop fetch (fun r key => support.write r key op.cls.isCAS) outBufferSize op.keys [] s

end RetrievalCommand

/-- The execute of INCR and DECR. A message stands for the bytes that are copied of it. -/
def INCR.execute {σ : Type} (U : CacheUtils) (count : List UInt8 → Int → σ → Counted × σ)
    (op : Operation) (s : σ) : Executed σ :=
  let (counted, s) := count op.key op.value s
  match counted with
  | .value result =>
    reply op.noreply (if result ≥ 0 then U.longToStrDirect result ++ CRLF else NOT_FOUND) s
  | .numberFormat => reply op.noreply (ascii "CLIENT_ERROR number format error\r\n") s
  | .illegalArgument msg => reply op.noreply (ascii "CLIENT_ERROR " ++ msg ++ CRLF) s

def TOUCH.execute {σ : Type} (support : Memcached σ) (op : Operation) (s : σ) : Executed σ :=
  let (result, s) := support.touch op.key op.exptime s
  reply op.noreply (if result ≥ 0 then TOUCHED else NOT_FOUND) s

def DELETE.execute {σ : Type} (support : Memcached σ) (op : Operation) (s : σ) : Executed σ :=
  let (result, s) := support.delete op.key s
  reply op.noreply (if result = .DELETED then DELETED else NOT_FOUND) s

def FLUSH_ALL.execute {σ : Type} (support : Memcached σ) (op : Operation) (s : σ) : Executed σ :=
  reply op.noreply (ascii "OK\r\n") (support.flushAll op.delay s)

/-- The version stands for the bytes that are copied of it, as many as it has chars. -/
def VERSION.execute {σ : Type} (version : Option (List UInt8)) (s : σ) : Executed σ :=
  reply false (ascii "VERSION " ++ version.getD (ascii "unknown") ++ CRLF) s

def STATS.execute {σ : Type} (support : Memcached σ) (s : σ) : Executed σ :=
  let lines := (support.stats s).flatMap fun (name, value) =>
    ascii "STAT " ++ name ++ SP :: value ++ CRLF
  reply false (lines ++ END) s

/-- The message stands for the bytes that are copied of it, as many as it has chars. -/
def SHUTDOWN.execute {σ : Type} (support : Memcached σ) (s : σ) : Executed σ :=
  match support.shutdown s with
  | none => ⟨s, [], .exit⟩
  | some msg => reply false (ascii "SERVER_ERROR " ++ msg ++ CRLF) s

/-- The execute method of each class. -/
def Operation.execute {σ : Type} (services : Services σ) (outBufferSize : Int) (op : Operation)
    (s : σ) : Executed σ :=
  let support := services.support
  match op.cls with
  | .SET => StorageCommand.execute support.set op s
  | .ADD => StorageCommand.execute support.add op s
  | .REPLACE => StorageCommand.execute support.replace op s
  | .APPEND => StorageCommand.execute support.append op s
  | .PREPEND => StorageCommand.execute support.prepend op s
  | .CAS => CAS.execute support op s
  | .GET => RetrievalCommand.execute support support.get outBufferSize op s
  | .GETS => RetrievalCommand.execute support support.gets outBufferSize op s
  | .GAT =>
    RetrievalCommand.execute support (fun key => support.gat key op.exptime) outBufferSize op s
  | .GATS =>
    RetrievalCommand.execute support (fun key => support.gats key op.exptime) outBufferSize op s
  | .INCR => INCR.execute services.utils support.incr op s
  | .DECR => INCR.execute services.utils support.decr op s
  | .TOUCH => TOUCH.execute support op s
  | .DELETE => DELETE.execute support op s
  | .FLUSH_ALL => FLUSH_ALL.execute support op s
  | .VERSION => VERSION.execute services.version s
  | .STATS => STATS.execute support s
  | .SHUTDOWN => SHUTDOWN.execute support s
  | .QUIT | .SAVE | .BGSAVE => reply true [] s

end Memcarrot
