import Memcarrot.Commands.StorageCommand
import Memcarrot.Commands.RetrievalCommand
import Memcarrot.Commands.KeyCommands
import Memcarrot.Commands.ServerCommands

open Incremental RawMemory

namespace Memcarrot

open Utils

/-- The parse method of each class. -/
def CommandClass.parse (U : CacheUtils) (cls : CommandClass) (inBuffer bufferSize : Int) :
    Access Thrown MemcachedCommand :=
  match cls with
  | .SET | .ADD | .CAS | .APPEND | .PREPEND | .REPLACE =>
    StorageCommand.parse U cls inBuffer bufferSize
  | .GET | .GETS | .GAT | .GATS => RetrievalCommand.parse U cls inBuffer bufferSize
  | .INCR | .DECR => INCR.parse U cls inBuffer bufferSize
  | .TOUCH => TOUCH.parse U inBuffer bufferSize
  | .DELETE => DELETE.parse U inBuffer bufferSize
  | .FLUSH_ALL => FLUSH_ALL.parse U inBuffer bufferSize
  | .QUIT => QUIT.parse inBuffer bufferSize
  | .VERSION => VERSION.parse inBuffer bufferSize
  | .SHUTDOWN => SHUTDOWN.parse inBuffer bufferSize
  | .STATS => STATS.parse U inBuffer bufferSize
  | .SAVE => SAVE.parse inBuffer bufferSize
  | .BGSAVE => BGSAVE.parse inBuffer bufferSize

namespace CommandParser

/-- The command words of one length with their classes, in the order they are tried. -/
def commands (len : Nat) : List (List UInt8 × CommandClass) :=
  match len with
  | 3 => [(ascii "get", .GET), (ascii "gat", .GAT), (ascii "set", .SET), (ascii "add", .ADD),
      (ascii "cas", .CAS)]
  | 4 => [(ascii "gets", .GETS), (ascii "gats", .GATS), (ascii "incr", .INCR),
      (ascii "decr", .DECR), (ascii "save", .SAVE), (ascii "quit", .QUIT)]
  | 5 => [(ascii "touch", .TOUCH), (ascii "stats", .STATS)]
  | 6 => [(ascii "append", .APPEND), (ascii "delete", .DELETE), (ascii "bgsave", .BGSAVE)]
  | 7 => [(ascii "prepend", .PREPEND), (ascii "replace", .REPLACE), (ascii "version", .VERSION)]
  | 8 => [(ascii "shutdown", .SHUTDOWN)]
  | 9 => [(ascii "flush_all", .FLUSH_ALL)]
  | _ => []

/-- The chain of `else if (compareTo(buf, len, word, len) == 0)` over the words of one length,
with the exception at its end. -/
def firstMatch (U : CacheUtils) (buf : Int) (len : Nat) :
    List (List UInt8 × CommandClass) → Access Thrown CommandClass
  | [] => do
    let name ← .bytes buf len
    .throw (.unsupportedCommand name)
  | (word, cls) :: words => do
    let order ← compareTo U buf len word
    if order = 0 then return cls else firstMatch U buf len words

def parse (U : CacheUtils) (buf size : Int) : Access Thrown MemcachedCommand := do
  returnFalseIf (size < 3)
  let start ← nextTokenStart buf size
  throwIf (start > 0) "malformed request"
  returnFalseIf (start < 0)
  let stop ← nextTokenEnd (buf + start) (size - start)
  returnFalseIf (stop < 0)
  let len := stop - start
  let cls ← firstMatch U buf len.toNat (commands len.toNat)
  let start ← nextTokenStart (buf + len) (size - len)
  returnFalseIf (start = -1)
  throwIf (start > 1) "malformed request"
  cls.parse U (buf + len + start) (size - start - len)

end CommandParser

end Memcarrot
