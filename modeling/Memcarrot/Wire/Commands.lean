import Memcarrot.Commands.CommandParser
import Memcarrot.Wire.Fields

open Incremental RawMemory

namespace Memcarrot.Wire

def casField (U : CacheUtils) (cls : CommandClass) (c : Input) : Verdict Thrown (Int × Input) :=
  if cls.isCAS then do
    let (token, c) ← nextField "4 malformed request" c
    let cas ← number U token
    return (cas, c)
  else return (0, c)

def storage (U : CacheUtils) (cls : CommandClass) (args : Input) :
    Verdict Thrown MemcachedCommand :=
  Verdict.rethrow (catchNumberFormat "not a number") do
    let (key, c) ← keyField args
    let (token, c) ← nextField "1 malformed request" c
    let flags ← number U token
    failIf (flags > 0xffffffff ∨ flags < 0) "flags is not 32 - bit unsigned"
    let (token, c) ← nextField "2 malformed request" c
    let exptime ← number U token
    let (token, c) ← nextField "3 malformed request" c
    let valSize ← number U token
    failIf (valSize > 2 ^ 31 - 1 ∨ valSize < 0) ("illegal value size: " ++ toString valSize)
    let (cas, c) ← casField U cls c
    let (noreply, c) ← lineEnd "'\\r\\n' was expected" c
    incompleteIf (valSize > c.rest.length - 2)
    return { cls, keyPtr := key.ptr, keySize := key.items.length, valPtr := c.ptr, valSize, flags,
             exptime, cas, noreply, consumed := valSize + (c.ptr - args.ptr) + 2 }

def keyNumber (U : CacheUtils) (msg : String)
    (command : Int → Int → Int → Bool → Int → MemcachedCommand) (args : Input) :
    Verdict Thrown MemcachedCommand :=
  Verdict.rethrow (catchNumberFormat "not a number") do
    let (key, c) ← keyField args
    let (token, c) ← nextField "malformed request" c
    let value ← number U token
    let (noreply, c) ← lineEnd msg c
    return command key.ptr key.items.length value noreply (c.ptr - args.ptr)

def incr (U : CacheUtils) (cls : CommandClass) (args : Input) :
    Verdict Thrown MemcachedCommand :=
  keyNumber U "'\r\n' was expected"
    (fun keyPtr keySize value noreply consumed =>
      { cls, keyPtr, keySize, value, noreply, consumed }) args

def touch (U : CacheUtils) (args : Input) : Verdict Thrown MemcachedCommand :=
  keyNumber U "'\\r\\n' was expected"
    (fun keyPtr keySize exptime noreply consumed =>
      { cls := .TOUCH, keyPtr, keySize, exptime, noreply, consumed }) args

def delete (args : Input) : Verdict Thrown MemcachedCommand := do
  let (key, c) ← keyField args
  let (noreply, c) ← lineEnd "'\r\n' was expected" c
  return { cls := .DELETE, keyPtr := key.ptr, keySize := key.items.length, noreply,
           consumed := c.ptr - args.ptr }

/-- The number of tokens before the first CR, where there is one. The flag tells whether the
bytes in front are those of a token. -/
def countTokens : Bool → List UInt8 → Option Nat
  | _, [] => none
  | inToken, b :: bs =>
    if b = CR then some 0
    else if b = SP then countTokens false bs
    else if inToken then countTokens true bs
    else (countTokens true bs).map (· + 1)

def exptimeField (U : CacheUtils) (cls : CommandClass) (c : Input) :
    Verdict Thrown (Int × Input) :=
  if cls.isTouch then do
    let (_, c) ← span isSpace c
    let (token, c) ← span isTokenByte c
    failIf (token.items = []) "malformed request"
    let exptime ← number U token
    return (exptime, c)
  else return (0, c)

/-- Reads `left` more keys after `i` ones. -/
def keys : Nat → Nat → Input → Verdict Thrown (List Slice × Input)
  | 0, _, c => return ([], c)
  | left + 1, i, c => do
    let (gap, c) ← span isSpace c
    failIf (i ≠ 0 ∧ gap.items.length ≠ 1) "malformed request"
    let (key, c) ← span isTokenByte c
    failIf (key.items = []) "malformed request"
    let (slices, c) ← keys left (i + 1) c
    return (⟨key.ptr, key.items.length⟩ :: slices, c)

def retrieval (U : CacheUtils) (cls : CommandClass) (args : Input) :
    Verdict Thrown MemcachedCommand :=
  Verdict.rethrow (catchNumberFormat "not a number") <|
    match countTokens false args.rest with
    | none => .incomplete
    | some count =>
      if cls.isTouch ∧ count = 0 then .failed .negativeArraySize
      else do
        let (exptime, c) ← exptimeField U cls args
        let (keys, c) ← keys (if cls.isTouch then count - 1 else count) 0 c
        let c ← skipCRLF "'\r\n' was expected" c
        return { cls, keys, exptime, consumed := c.ptr - args.ptr }

/-- The delay, noreply and the input where the line is read on. Spaces that have no end yet are
not looked behind, unlike everywhere else. -/
def flushArguments (U : CacheUtils) (token : Token) (args c : Input) :
    Verdict Thrown (Int × Bool × Input) :=
  if token.items.head? ≠ some LOWER_N then do
    let v ← number U token
    failIf (FLUSH_ALL.toInt v < 0) "delay is negative"
    match (span isSpace c : Verdict Thrown (Token × Input)) with
    | .done (gap, word) =>
      if gap.items = [] then return (FLUSH_ALL.toInt v, false, c)
      else do
        let (noreply, c) ← checkNoreply word c
        return (FLUSH_ALL.toInt v, noreply, c)
    | _ => return (FLUSH_ALL.toInt v, false, c)
  else do
    let (noreply, c) ← checkNoreply args c
    return (0, noreply, c)

def flushAll (U : CacheUtils) (args : Input) : Verdict Thrown MemcachedCommand :=
  Verdict.rethrow (catchNumberFormat "delay is not a number") do
    let (token, c) ← span isTokenByte args
    let (delay, noreply, c) ←
      (if token.items ≠ [] then flushArguments U token args c else .done (0, false, c))
    let next ← skipCRLF "'\r\n' was expected" c
    return { cls := .FLUSH_ALL, noreply, delay,
             consumed := (if c.ptr = args.ptr then -1 else 0) + (next.ptr - args.ptr) }

def twoBytes (cls : CommandClass) (args : Input) : Verdict Thrown MemcachedCommand := do
  incompleteIf (args.rest.length ≠ 2)
  return { cls }

def stats (args : Input) : Verdict Thrown MemcachedCommand := do
  incompleteIf (args.rest.length < 2)
  if args.rest = CRLF then return { cls := .STATS }
  else .failed (.unsupportedCommand (ascii "STATS"))

/-- Parses the arguments of a command. -/
def arguments (U : CacheUtils) (cls : CommandClass) (args : Input) :
    Verdict Thrown MemcachedCommand :=
  match cls with
  | .SET | .ADD | .CAS | .APPEND | .PREPEND | .REPLACE => storage U cls args
  | .GET | .GETS | .GAT | .GATS => retrieval U cls args
  | .INCR | .DECR => incr U cls args
  | .TOUCH => touch U args
  | .DELETE => delete args
  | .FLUSH_ALL => flushAll U args
  | .QUIT | .VERSION | .SHUTDOWN => twoBytes cls args
  | .STATS => stats args
  | .SAVE | .BGSAVE => .incomplete

/-- The class a command word stands for. -/
def classOf (word : List UInt8) : Option CommandClass :=
  ((CommandParser.commands word.length).find? fun entry => entry.1 = word).map (·.2)

/-- Reads the command word. -/
def commandWord (c : Input) : Verdict Thrown (CommandClass × Input) := do
  let (word, c) ← span isTokenByte c
  match classOf word.items with
  | some cls => return (cls, c)
  | none => .failed (.unsupportedCommand word.items)

def parse (U : CacheUtils) (c : Input) : Verdict Thrown MemcachedCommand := do
  incompleteIf (c.rest.length < 3)
  let (gap, c) ← span isSpace c
  failIf (gap.items ≠ []) "malformed request"
  let (cls, c) ← commandWord c
  let (gap, args) ← span isSpace c
  failIf (gap.items.length > 1) "malformed request"
  arguments U cls args

end Memcarrot.Wire
