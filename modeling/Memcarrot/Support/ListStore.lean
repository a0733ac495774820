import Memcarrot.Commands.Fields
import Memcarrot.Support.Memcached
import Memcarrot.Util.Decimal

namespace Memcarrot

/-- A store that keeps its items in a list and never expires or evicts one. -/
structure ListStore where
  items : List (List UInt8 × Record) := []
  lastCas : Int := 0
  deriving DecidableEq, Repr

namespace ListStore

def find (key : List UInt8) (s : ListStore) : Record :=
  ((s.items.find? fun item => item.1 = key).map (·.2)).getD { value := none }

def remove (key : List UInt8) (s : ListStore) : ListStore :=
  { s with items := s.items.filter fun item => item.1 ≠ key }

theorem find_remove (key k : List UInt8) (s : ListStore) :
    (s.remove key).find k = if k = key then { value := none } else s.find k := by
  unfold find remove
  induction s.items with
  | nil => simp
  | cons item items ih =>
    by_cases hkey : item.1 = key
    · rw [List.filter_cons_of_neg (by simpa using hkey), ih]
      split_ifs with hk
      · rfl
      · rw [List.find?_cons_of_neg (by simpa [hkey] using Ne.symm hk)]
    · rw [List.filter_cons_of_pos (by simpa using hkey)]
      by_cases hitem : item.1 = k
      · rw [List.find?_cons_of_pos (by simpa using hitem),
          List.find?_cons_of_pos (by simpa using hitem), if_neg (hitem ▸ hkey)]
      · rw [List.find?_cons_of_neg (by simpa using hitem),
          List.find?_cons_of_neg (by simpa using hitem), ih]

def put (key value : List UInt8) (flags : Int) (s : ListStore) : ListStore :=
  let cas := s.lastCas + 1
  { items := (key, { value := some value, flags, cas }) :: (s.remove key).items, lastCas := cas }

/-- Puts a new value where `value` gives one for the item that is there. -/
def update (value : Record → Option (List UInt8)) (key : List UInt8) (flags : Int)
    (s : ListStore) : OpResult × ListStore :=
  match value (s.find key) with
  | some value => (.STORED, s.put key value flags)
  | none => (.NOT_STORED, s)

def fetch (key : List UInt8) (s : ListStore) : Record × ListStore := (s.find key, s)

def cas (key value : List UInt8) (flags unique : Int) (s : ListStore) : OpResult × ListStore :=
  let item := s.find key
  if item.value = none then (.NOT_FOUND, s)
  else if item.cas ≠ unique then (.EXISTS, s)
  else (.STORED, s.put key value flags)

/-- A counter modulo 2^64, as the bits of a long. -/
def count (next : Int → Int) (key : List UInt8) (s : ListStore) : Counted × ListStore :=
  let item := s.find key
  match item.value with
  | none => (.value (-1), s)
  | some value =>
    match Decimal.parseSigned value with
    | none => (.numberFormat, s)
    | some v =>
      let v := next v % 2 ^ 64
      (.value (if v < 2 ^ 63 then v else v - 2 ^ 64), s.put key (Decimal.toString v) item.flags)

/-- The lines of a record in a response. -/
def encode (r : Record) (key : List UInt8) (withCas : Bool) : List UInt8 :=
  let data := r.value.getD []
  ascii "VALUE " ++ key ++ SP :: Decimal.toString r.flags ++ SP :: Decimal.toString data.length ++
    (if withCas then SP :: Decimal.toString r.cas else []) ++ CRLF ++ data ++ CRLF

/-- Get-and-touch where a negative exptime expires an item. -/
def touch (key : List UInt8) (exptime : Int) (s : ListStore) : Record × ListStore :=
  (s.find key, if exptime < 0 then s.remove key else s)

def memcached : Memcached ListStore where
  set key value flags _ s := (.STORED, s.put key value flags)
  add key value flags _ :=
    update (fun item => if item.value = none then some value else none) key flags
  replace key value flags _ := update (fun item => item.value.map fun _ => value) key flags
  append key value flags _ := update (fun item => item.value.map (· ++ value)) key flags
  prepend key value flags _ := update (fun item => item.value.map (value ++ ·)) key flags
  cas key value flags _ := cas key value flags
  get := fetch
  gets := fetch
  gat key _ := fetch key
  gats key _ := fetch key
  incr key value := count (· + value) key
  decr key value := count (fun v => max (v - value) 0) key
  touch key _ s := (if (s.find key).value = none then -1 else 0, s)
  delete key s := if (s.find key).value = none then (.NOT_FOUND, s) else (.DELETED, s.remove key)
  flushAll _ s := { s with items := [] }
  stats _ := []
  shutdown _ := none
  write := encode

end ListStore

/-- A list store whose items expire by get-and-touch. -/
def ListStore.expiring : Memcached ListStore :=
  { ListStore.memcached with gat := ListStore.touch, gats := ListStore.touch }

/-- A server on a list store. -/
def listServices : Services ListStore := { utils := decimalUtils, support := ListStore.memcached }

def expiringServices : Services ListStore :=
  { utils := decimalUtils, support := ListStore.expiring }

end Memcarrot
