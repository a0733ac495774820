import Memcarrot.Interaction.Program
import Memcarrot.Support.Memcached

open Interaction

namespace Memcarrot

/-- A call of a method of the store, with its arguments. -/
inductive StoreCall where
  | set (key value : List UInt8) (flags exptime : Int)
  | add (key value : List UInt8) (flags exptime : Int)
  | replace (key value : List UInt8) (flags exptime : Int)
  | append (key value : List UInt8) (flags exptime : Int)
  | prepend (key value : List UInt8) (flags exptime : Int)
  | cas (key value : List UInt8) (flags exptime cas : Int)
  | get (key : List UInt8)
  | gets (key : List UInt8)
  | gat (key : List UInt8) (exptime : Int)
  | gats (key : List UInt8) (exptime : Int)
  | incr (key : List UInt8) (value : Int)
  | decr (key : List UInt8) (value : Int)
  | touch (key : List UInt8) (exptime : Int)
  | delete (key : List UInt8)
  | flushAll (delay : Int)
  | stats
  | shutdown
  deriving DecidableEq, Repr

namespace StoreCall

/-- What a method returns, or the message of its IOException. -/
abbrev Answer : StoreCall → Type
  | set .. | add .. | replace .. | append .. | prepend .. | cas .. | delete .. => OpResult
  | get .. | gets .. | gat .. | gats .. => Record
  | incr .. | decr .. => Counted
  | touch .. => Int
  | flushAll .. => Unit
  | stats => List (List UInt8 × List UInt8)
  | shutdown => Option (List UInt8)

/-- The calls that are told to a connection as its own. -/
def Told : StoreCall → Prop
  | stats | shutdown => False
  | _ => True

end StoreCall

abbrev storeInterface : Interface where
  Call := StoreCall
  Answer := StoreCall.Answer

abbrev StoreProgram := Program storeInterface

namespace Memcached

variable {σ : Type}

/-- The store as the object that the workers share. -/
def object (support : Memcached σ) : Object storeInterface σ
  | .set key value flags exptime => support.set key value flags exptime
  | .add key value flags exptime => support.add key value flags exptime
  | .replace key value flags exptime => support.replace key value flags exptime
  | .append key value flags exptime => support.append key value flags exptime
  | .prepend key value flags exptime => support.prepend key value flags exptime
  | .cas key value flags exptime cas => support.cas key value flags exptime cas
  | .get key => support.get key
  | .gets key => support.gets key
  | .gat key exptime => support.gat key exptime
  | .gats key exptime => support.gats key exptime
  | .incr key value => support.incr key value
  | .decr key value => support.decr key value
  | .touch key exptime => support.touch key exptime
  | .delete key => support.delete key
  | .flushAll delay => fun s => ((), support.flushAll delay s)
  | .stats => fun s => (support.stats s, s)
  | .shutdown => fun s => (support.shutdown s, s)

/-- The store as it is told to one connection. The calls of stats and shutdown, which change
nothing, are not told. -/
def replay (support : Memcached σ) : Memcached (Replay σ) where
  set key value flags exptime := Replay.call (support.set key value flags exptime)
  add key value flags exptime := Replay.call (support.add key value flags exptime)
  replace key value flags exptime := Replay.call (support.replace key value flags exptime)
  append key value flags exptime := Replay.call (support.append key value flags exptime)
  prepend key value flags exptime := Replay.call (support.prepend key value flags exptime)
  cas key value flags exptime cas := Replay.call (support.cas key value flags exptime cas)
  get key := Replay.call (support.get key)
  gets key := Replay.call (support.gets key)
  gat key exptime := Replay.call (support.gat key exptime)
  gats key exptime := Replay.call (support.gats key exptime)
  incr key value := Replay.call (support.incr key value)
  decr key value := Replay.call (support.decr key value)
  touch key exptime := Replay.call (support.touch key exptime)
  delete key := Replay.call (support.delete key)
  flushAll delay r := (Replay.call (fun s => ((), support.flushAll delay s)) r).2
  stats r := support.stats (r.met r.calls.length)
  shutdown r := support.shutdown (r.met r.calls.length)
  write := support.write

theorem replay_object (support : Memcached σ) {c : StoreCall} (h : c.Told) :
    support.replay.object c = Replay.object support.object c := by
  cases c with
  | stats | shutdown => exact absurd h id
  | _ => rfl

end Memcached

/-- A server on the store as it is told to one connection. -/
def Services.replay {σ : Type} (services : Services σ) : Services (Replay σ) :=
  { utils := services.utils, support := services.support.replay, version := services.version }

end Memcarrot
