import Memcarrot.Util.Utils

open Incremental RawMemory

namespace Memcarrot

/-- The classes that implement MemcachedCommand. -/
inductive CommandClass where
  | GET | GAT | SET | ADD | CAS
  | GETS | GATS | INCR | DECR | SAVE | QUIT
  | TOUCH | STATS
  | APPEND | DELETE | BGSAVE
  | PREPEND | REPLACE | VERSION
  | SHUTDOWN
  | FLUSH_ALL
  deriving DecidableEq, Repr

namespace CommandClass

/-- The subclasses of StorageCommand. -/
def isStorage : CommandClass → Bool
  | SET | ADD | CAS | APPEND | PREPEND | REPLACE => true
  | _ => false

/-- The subclasses of RetrievalCommand. -/
def isRetrieval : CommandClass → Bool
  | GET | GAT | GETS | GATS => true
  | _ => false

/-- The subclasses of AbstractMemcachedCommand. -/
def isAbstract : CommandClass → Bool
  | INCR | DECR | TOUCH | DELETE => true
  | cls => cls.isStorage || cls.isRetrieval

/-- The field `isCAS` as the constructors set it. -/
def isCAS : CommandClass → Bool
  | CAS | GETS | GATS => true
  | _ => false

/-- The field `isTouch` as the constructors set it. -/
def isTouch : CommandClass → Bool
  | GAT | GATS => true
  | _ => false

/-- GAT inherits the method from GET and DECR from INCR. -/
def commandLength : CommandClass → Int
  | GET | GAT | SET | ADD | CAS => 4
  | GETS | GATS | INCR | DECR => 5
  | TOUCH => 6
  | APPEND | DELETE | BGSAVE => 7
  | PREPEND | REPLACE => 8
  | FLUSH_ALL => 10
  | SAVE | QUIT | STATS | VERSION | SHUTDOWN => 0

theorem isAbstract_of_isStorage {cls : CommandClass} (h : cls.isStorage = true) :
    cls.isAbstract = true ∧ cls.isRetrieval = false := by
  cases cls <;> simp_all [isStorage, isAbstract, isRetrieval]

theorem isAbstract_of_isRetrieval {cls : CommandClass} (h : cls.isRetrieval = true) :
    cls.isAbstract = true ∧ cls.isStorage = false := by
  cases cls <;> simp_all [isStorage, isAbstract, isRetrieval]

end CommandClass

/-- An address and a size: one entry of `keys` and `keySizes`. -/
structure Slice where
  ptr : Int
  size : Int
  deriving DecidableEq, Repr

/-- A command object. The fields are those of the classes together; what a class does not have
or its parse does not set keeps the initial value of Java. -/
structure MemcachedCommand where
  cls : CommandClass
  keyPtr : Int := 0
  keySize : Int := 0
  valPtr : Int := 0
  valSize : Int := 0
  flags : Int := 0
  exptime : Int := 0
  cas : Int := 0
  value : Int := 0
  noreply : Bool := false
  consumed : Int := 0
  keys : List Slice := []
  delay : Int := 0
  deriving DecidableEq, Repr

namespace MemcachedCommand

def inputConsumed (cmd : MemcachedCommand) : Int :=
  match cmd.cls with
  | .FLUSH_ALL => cmd.consumed + cmd.cls.commandLength
  | .VERSION => 9
  | .QUIT => 6
  | .STATS => 7
  | .SHUTDOWN => 10
  | .SAVE | .BGSAVE => 0
  | _ => if cmd.consumed = 0 then 0 else cmd.consumed + cmd.cls.commandLength

end MemcachedCommand

/-- `AbstractMemcachedCommand.isMemorySafe`. -/
def AbstractMemcachedCommand.isMemorySafe (cmd : MemcachedCommand) (memptr memsize : Int) : Bool :=
  let safe := cmd.keyPtr > 0 && cmd.keySize > 0
  let safe := safe && cmd.keyPtr > memptr && cmd.keyPtr + cmd.keySize < memptr + memsize
  if cmd.cls.isStorage then
    let safe := safe && (cmd.valPtr > 0 && cmd.valSize ≥ 0)
    let safe := safe && (cmd.valPtr > memptr && cmd.valPtr + cmd.valSize < memptr + memsize)
    safe && cmd.valPtr > cmd.keyPtr + cmd.keySize
  else safe

/-- `RetrievalCommand.isMemorySafe`. -/
def RetrievalCommand.isMemorySafe (cmd : MemcachedCommand) (memptr memsize : Int) : Bool :=
  cmd.keys.all fun key =>
    (key.ptr > 0 && key.size > 0) && (key.ptr > memptr && key.ptr + key.size < memptr + memsize)

/-- `CommandProcessor.isMemorySafe`. -/
def CommandProcessor.isMemorySafe (cmd : MemcachedCommand) (memptr memsize : Int) : Bool :=
  if !cmd.cls.isAbstract then true
  else if cmd.cls.isRetrieval then RetrievalCommand.isMemorySafe cmd memptr memsize
  else AbstractMemcachedCommand.isMemorySafe cmd memptr memsize

end Memcarrot
