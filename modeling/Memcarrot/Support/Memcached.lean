import Memcarrot.Util.Utils

namespace Memcarrot

inductive OpResult where
  | STORED | NOT_STORED | EXISTS | NOT_FOUND | DELETED
  deriving DecidableEq, Repr

/-- A stored item. The value is `none` where Java has null. -/
structure Record where
  value : Option (List UInt8)
  flags : Int := 0
  cas : Int := 0
  deriving DecidableEq, Repr

/-- How incr and decr of the store end, with minus one as the value where there is no item. The
message of an exception is given by the bytes that are copied of it, one for each char. -/
inductive Counted where
  | value (result : Int)
  | numberFormat
  | illegalArgument (msg : List UInt8)
  deriving DecidableEq, Repr

/-- The store behind the server, a class of the cache library, as operations on a state `σ`. Keys
and values are given by the bytes in the address ranges that are passed. `write` is the encoding
that `Record.write` puts into a large enough buffer for a key, with or without the cas value, and
`shutdown` has the message of its IOException, or `none` where it succeeds, by the bytes that are
copied of it, one for each char. -/
structure Memcached (σ : Type) where
  set : List UInt8 → List UInt8 → Int → Int → σ → OpResult × σ
  add : List UInt8 → List UInt8 → Int → Int → σ → OpResult × σ
  replace : List UInt8 → List UInt8 → Int → Int → σ → OpResult × σ
  append : List UInt8 → List UInt8 → Int → Int → σ → OpResult × σ
  prepend : List UInt8 → List UInt8 → Int → Int → σ → OpResult × σ
  cas : List UInt8 → List UInt8 → Int → Int → Int → σ → OpResult × σ
  get : List UInt8 → σ → Record × σ
  gets : List UInt8 → σ → Record × σ
  gat : List UInt8 → Int → σ → Record × σ
  gats : List UInt8 → Int → σ → Record × σ
  incr : List UInt8 → Int → σ → Counted × σ
  decr : List UInt8 → Int → σ → Counted × σ
  touch : List UInt8 → Int → σ → Int × σ
  delete : List UInt8 → σ → OpResult × σ
  flushAll : Int → σ → σ
  stats : σ → List (List UInt8 × List UInt8)
  shutdown : σ → Option (List UInt8)
  write : Record → List UInt8 → Bool → List UInt8

/-- What executing a command depends on besides the command: the helpers, the store and the
property MEMCARROT_VERSION, by the bytes that are copied of it, one for each char. -/
structure Services (σ : Type) where
  utils : CacheUtils
  support : Memcached σ
  version : Option (List UInt8) := none

end Memcarrot
