import Memcarrot.Commands.Execute
import Memcarrot.Util.Decimal
import Memcarrot.Wire.Opening

namespace Memcarrot

namespace SimpleClient

/-- The loop that puts the keys into the buffer, with a space after each but the last. -/
def putKeys : List (List UInt8) → List UInt8
  | [] => []
  | [key] => key
  | key :: keys => key ++ SP :: putKeys keys

def putNoreply (noreply : Bool) : List UInt8 := if noreply then SP :: NOREPLY else []

/-- What get and gets put into the buffer. -/
def putGet (cmd : List UInt8) (keys : List (List UInt8)) : List UInt8 :=
  cmd ++ SP :: (putKeys keys ++ CRLF)

def get (keys : List (List UInt8)) : List UInt8 := putGet CommandClass.GET.word keys

def gets (keys : List (List UInt8)) : List UInt8 := putGet CommandClass.GETS.word keys

/-- What gat and gats put into the buffer. -/
def putGat (cmd : List UInt8) (expire : Int64) (keys : List (List UInt8)) : List UInt8 :=
  cmd ++ SP :: (Decimal.toString expire.toInt ++ SP :: (putKeys keys ++ CRLF))

def gat (expire : Int64) (keys : List (List UInt8)) : List UInt8 :=
  putGat CommandClass.GAT.word expire keys

def gats (expire : Int64) (keys : List (List UInt8)) : List UInt8 :=
  putGat CommandClass.GATS.word expire keys

def putCas : Option Int64 → List UInt8
  | none => []
  | some cas => SP :: Decimal.toString cas.toInt

def store (cmd key value : List UInt8) (flags : Int32) (expire : Int64) (noreply : Bool)
    (cas : Option Int64) : List UInt8 :=
  cmd ++ SP :: (key ++ SP :: (Decimal.toString flags.toInt ++ SP ::
    (Decimal.toString expire.toInt ++ SP :: (Decimal.toString value.length ++
      (putCas cas ++ (putNoreply noreply ++ (CRLF ++ (value ++ CRLF))))))))

def set (key value : List UInt8) (flags : Int32) (expire : Int64) (noreply : Bool) : List UInt8 :=
  store CommandClass.SET.word key value flags expire noreply none

def add (key value : List UInt8) (flags : Int32) (expire : Int64) (noreply : Bool) : List UInt8 :=
  store CommandClass.ADD.word key value flags expire noreply none

def replace (key value : List UInt8) (flags : Int32) (expire : Int64) (noreply : Bool) :
    List UInt8 :=
  store CommandClass.REPLACE.word key value flags expire noreply none

def append (key value : List UInt8) (flags : Int32) (expire : Int64) (noreply : Bool) :
    List UInt8 :=
  store CommandClass.APPEND.word key value flags expire noreply none

def prepend (key value : List UInt8) (flags : Int32) (expire : Int64) (noreply : Bool) :
    List UInt8 :=
  store CommandClass.PREPEND.word key value flags expire noreply none

def cas (key value : List UInt8) (flags : Int32) (expire : Int64) (noreply : Bool) (cas : Int64) :
    List UInt8 :=
  store CommandClass.CAS.word key value flags expire noreply (some cas)

def delete (key : List UInt8) (noreply : Bool) : List UInt8 :=
  CommandClass.DELETE.word ++ SP :: (key ++ (putNoreply noreply ++ CRLF))

/-- What touch, incr and decr put into the buffer. -/
def putKeyNumber (cmd key : List UInt8) (number : Int64) (noreply : Bool) : List UInt8 :=
  cmd ++ SP :: (key ++ SP :: (Decimal.toString number.toInt ++ (putNoreply noreply ++ CRLF)))

def touch (key : List UInt8) (expire : Int64) (noreply : Bool) : List UInt8 :=
  putKeyNumber CommandClass.TOUCH.word key expire noreply

def incr (key : List UInt8) (value : Int64) (noreply : Bool) : List UInt8 :=
  putKeyNumber CommandClass.INCR.word key value noreply

def decr (key : List UInt8) (value : Int64) (noreply : Bool) : List UInt8 :=
  putKeyNumber CommandClass.DECR.word key value noreply

end SimpleClient

/-- A call of the client. -/
inductive ClientCall where
  | set (key value : List UInt8) (flags : Int32) (expire : Int64) (noreply : Bool)
  | add (key value : List UInt8) (flags : Int32) (expire : Int64) (noreply : Bool)
  | replace (key value : List UInt8) (flags : Int32) (expire : Int64) (noreply : Bool)
  | append (key value : List UInt8) (flags : Int32) (expire : Int64) (noreply : Bool)
  | prepend (key value : List UInt8) (flags : Int32) (expire : Int64) (noreply : Bool)
  | cas (key value : List UInt8) (flags : Int32) (expire : Int64) (noreply : Bool) (unique : Int64)
  | get (keys : List (List UInt8))
  | gets (keys : List (List UInt8))
  | gat (expire : Int64) (keys : List (List UInt8))
  | gats (expire : Int64) (keys : List (List UInt8))
  | delete (key : List UInt8) (noreply : Bool)
  | touch (key : List UInt8) (expire : Int64) (noreply : Bool)
  | incr (key : List UInt8) (value : Int64) (noreply : Bool)
  | decr (key : List UInt8) (value : Int64) (noreply : Bool)

namespace ClientCall

/-- The bytes the client writes to the channel. -/
def encode : ClientCall → List UInt8
  | set key value flags expire noreply => SimpleClient.set key value flags expire noreply
  | add key value flags expire noreply => SimpleClient.add key value flags expire noreply
  | replace key value flags expire noreply => SimpleClient.replace key value flags expire noreply
  | append key value flags expire noreply => SimpleClient.append key value flags expire noreply
  | prepend key value flags expire noreply => SimpleClient.prepend key value flags expire noreply
  | cas key value flags expire noreply unique =>
    SimpleClient.cas key value flags expire noreply unique
  | get keys => SimpleClient.get keys
  | gets keys => SimpleClient.gets keys
  | gat expire keys => SimpleClient.gat expire keys
  | gats expire keys => SimpleClient.gats expire keys
  | delete key noreply => SimpleClient.delete key noreply
  | touch key expire noreply => SimpleClient.touch key expire noreply
  | incr key value noreply => SimpleClient.incr key value noreply
  | decr key value noreply => SimpleClient.decr key value noreply

/-- The storage part of what a call asks for. -/
def storage (cls : CommandClass) (key value : List UInt8) (flags : Int32) (expire : Int64)
    (noreply : Bool) : Operation :=
  { cls, key, data := value, flags := flags.toInt, exptime := expire.toInt, noreply }

/-- What a call asks for. -/
def operation : ClientCall → Operation
  | set key value flags expire noreply => storage .SET key value flags expire noreply
  | add key value flags expire noreply => storage .ADD key value flags expire noreply
  | replace key value flags expire noreply => storage .REPLACE key value flags expire noreply
  | append key value flags expire noreply => storage .APPEND key value flags expire noreply
  | prepend key value flags expire noreply => storage .PREPEND key value flags expire noreply
  | cas key value flags expire noreply unique =>
    { storage .CAS key value flags expire noreply with cas := unique.toInt }
  | get keys => { cls := .GET, keys }
  | gets keys => { cls := .GETS, keys }
  | gat expire keys => { cls := .GAT, keys, exptime := expire.toInt }
  | gats expire keys => { cls := .GATS, keys, exptime := expire.toInt }
  | delete key noreply => { cls := .DELETE, key, noreply }
  | touch key expire noreply => { cls := .TOUCH, key, exptime := expire.toInt, noreply }
  | incr key value noreply => { cls := .INCR, key, value := value.toInt, noreply }
  | decr key value noreply => { cls := .DECR, key, value := value.toInt, noreply }

/-- Keys that can be told apart in a command line, flags that are not negative and a value with
the length of an array. -/
def WellFormed : ClientCall → Prop
  | set key value flags _ _ | add key value flags _ _ | replace key value flags _ _
  | append key value flags _ _ | prepend key value flags _ _ | cas key value flags _ _ _ =>
    Wire.IsToken key ∧ 0 ≤ flags.toInt ∧ value.length < 2 ^ 31
  | get keys | gets keys | gat _ keys | gats _ keys => keys ≠ [] ∧ ∀ key ∈ keys, Wire.IsToken key
  | delete key _ | touch key _ _ | incr key _ _ | decr key _ _ => Wire.IsToken key

end ClientCall

end Memcarrot
