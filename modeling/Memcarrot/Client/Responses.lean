import Memcarrot.Commands.Execute
import Memcarrot.Util.ByteBuffer
import Memcarrot.Util.JavaString

namespace Memcarrot

/-- The exceptions of the methods of the client that read a response. -/
inductive ClientException where
  | buffer (e : BufferException)
  | runtime (msg : Text)
  | numberFormat
  | negativeArraySize
  | arrayIndexOutOfBounds
  deriving DecidableEq, Repr

inductive ResponseCode where
  | DELETED | EXISTS | NOT_FOUND | NOT_STORED | STORED | TOUCHED | SAVED | OK | ERROR | CLIENT_ERROR
  | SERVER_ERROR
  deriving DecidableEq, Repr

/-- What a method for a response of one line returns: a code or, for incr and decr, a number. -/
inductive Answer where
  | code (code : ResponseCode)
  | number (value : Int)
  deriving DecidableEq, Repr

/-- A method that reads a response from a buffer. -/
abbrev Decoder (α : Type) := ByteBuffer → Except ClientException (α × ByteBuffer)

/-- An operation of the buffer in a method of the client. -/
def onBuffer {α : Type} (result : Except BufferException α) : Except ClientException α :=
  result.mapError .buffer

@[simp]
theorem onBuffer_ok {α : Type} (value : α) : onBuffer (.ok value) = .ok value := rfl

@[simp]
theorem onBuffer_error {α : Type} (e : BufferException) :
    onBuffer (.error e : Except BufferException α) = .error (.buffer e) := rfl

@[simp]
theorem ok_bind {α β : Type} (value : α) (f : α → Except ClientException β) :
    (Except.ok value >>= f) = f value := rfl

theorem bind_eq_ok_iff {α β : Type} {x : Except ClientException α}
    {f : α → Except ClientException β} {b : β} :
    (x >>= f) = .ok b ↔ ∃ a, x = .ok a ∧ f a = .ok b := by
  cases x with
  | ok a => exact ⟨fun h => ⟨a, rfl, h⟩, fun ⟨_, ha, h⟩ => Except.ok.inj ha ▸ h⟩
  | error e => exact ⟨(fun h => nomatch h), (fun ⟨_, ha, _⟩ => nomatch ha)⟩

namespace SimpleClient

def getStorageResponse (P : Platform) : Decoder (Option Answer) := fun buf => do
  let pos := buf.position
  if pos = 8 then
    if (← onBuffer (buf.getAt 0)) = 0x53 /- S -/ then return (some (.code .STORED), buf)
    else if (← onBuffer (buf.getAt 0)) = 0x45 /- E -/ then return (some (.code .EXISTS), buf)
    else return (none, buf)
  else if pos = 11 then
    if (← onBuffer (buf.getAt 4)) = 0x46 /- F -/ then return (some (.code .NOT_FOUND), buf)
    else return (none, buf)
  else if pos = 12 then
    if (← onBuffer (buf.getAt 4)) = 0x53 /- S -/ then return (some (.code .NOT_STORED), buf)
    else
      let (b, _) ← onBuffer (buf.flip.getBytes pos)
      throw (.runtime (P.decode b))
  else if pos > 0 then
    let (b, buf) ← onBuffer (buf.flip.getBytes pos)
    let s := P.decode b
    if s.startsWith "CLIENT_ERROR".toList then return (some (.code .CLIENT_ERROR), buf)
    else if s.startsWith "ERROR".toList then return (some (.code .ERROR), buf)
    else if s.startsWith "SERVER_ERROR".toList then return (some (.code .SERVER_ERROR), buf)
    else throw (.runtime s)
  else return (none, buf)

/-- The body of getTouchResponse and getDeleteResponse. -/
def getNineResponse (nine : ResponseCode) (P : Platform) : Decoder (Option Answer) := fun buf => do
  let pos := buf.position
  if pos = 9 then return (some (.code nine), buf)
  else if pos = 11 then return (some (.code .NOT_FOUND), buf)
  else if pos > 9 then
    let (b, _) ← onBuffer (buf.flip.getBytes pos)
    throw (.runtime (P.decode b))
  else return (none, buf)

def getTouchResponse : Platform → Decoder (Option Answer) := getNineResponse .TOUCHED

def getDeleteResponse : Platform → Decoder (Option Answer) := getNineResponse .DELETED

def getIncrDecrResponse (P : Platform) : Decoder (Option Answer) := fun buf => do
  let pos := buf.position
  if pos = 0 then return (none, buf)
  else if (← onBuffer (buf.getAt (pos - 1))) ≠ LF then return (none, buf)
  else if pos = 11 ∧ (← onBuffer (buf.getAt 0)) = 0x4E /- N -/ then
    return (some (.code .NOT_FOUND), buf)
  else if (← onBuffer (buf.getAt 0)) = 0x43 /- C -/ then
    return (some (.code .CLIENT_ERROR), buf)
  else if pos < 2 then throw .negativeArraySize
  else
    let (b, buf) ← onBuffer (buf.flip.getBytes (pos - 2))
    match P.parseLong (P.decode b) with
    | some value => return (some (.number value), buf)
    | none => throw .numberFormat

structure GetResult where
  key : List UInt8
  value : List UInt8
  flags : Int
  cas : Option Int
  deriving DecidableEq, Repr

/-- The comparison of the next five bytes with END, which leaves the position where it is. -/
def atEnd (U : CacheUtils) (buf : ByteBuffer) : Bool :=
  U.compareTo (buf.remaining.take END.length) END = 0

/-- The search for CRLF: the offset behind its first byte, or the last offset. The fuel is the
number of bytes from the offset to the limit. -/
def searchLoop (buf : ByteBuffer) : Nat → Nat → Except ClientException Nat
  | fuel + 2, off => do
    let b1 ← onBuffer (buf.getAt off)
    let b2 ← onBuffer (buf.getAt (off + 1))
    if b1 = CR ∧ b2 = LF then return off + 1 else searchLoop buf (fuel + 1) (off + 1)
  | _, off => return off

/-- An element of an array. -/
def element (splits : List Text) (index : Nat) : Except ClientException Text :=
  match splits[index]? with
  | some split => return split
  | none => throw .arrayIndexOutOfBounds

def number (value : Option Int) : Except ClientException Int :=
  match value with
  | some value => return value
  | none => throw .numberFormat

def parseLine (P : Platform) (U : CacheUtils) : Decoder (Option GetResult) := fun buf => do
  let pos := buf.position
  let limit := buf.limit
  if limit - pos = 5 then
    if atEnd U buf then return (none, buf) else throw (.runtime "malformed response".toList)
  else
    let off ← searchLoop buf (limit - pos) pos
    let newPos := off + 1
    if newPos < pos + 2 then throw .negativeArraySize
    else
      let (bb, buf) ← onBuffer (buf.getBytes (newPos - pos - 2))
      let splits := (P.decode bb).split
      let key := P.encode (← element splits 1)
      let flags ← number (P.parseInt (← element splits 2))
      let cas ←
        if splits.length = 5 then some <$> number (P.parseLong (← element splits 4)) else pure none
      let valueSize ← number (P.parseInt (← element splits 3))
      let (_, buf) ← onBuffer (buf.getBytes 1)
      let (_, buf) ← onBuffer (buf.getBytes 1)
      if valueSize < 0 then throw .negativeArraySize
      else
        let (value, buf) ← onBuffer (buf.getBytes valueSize.toNat)
        let (_, buf) ← onBuffer (buf.getBytes 1)
        let (_, buf) ← onBuffer (buf.getBytes 1)
        return (some { key, value, flags, cas }, buf)

/-- The rounds of the loop that calls `parseLine`, no more of them than the fuel. -/
def parseRounds (P : Platform) (U : CacheUtils) : Nat → Decoder (List GetResult)
  | 0, _ => throw (.buffer .bufferUnderflow)
  | fuel + 1, buf => do
    match ← parseLine P U buf with
    | (none, buf) => return ([], buf)
    | (some one, buf) =>
      let (result, buf) ← parseRounds P U fuel buf
      return (one :: result, buf)

/-- The loop that calls `parseLine`. Every round but the last moves the position, so that the fuel
does not run out. -/
def parseLines (P : Platform) (U : CacheUtils) : Decoder (List GetResult) := fun buf =>
  parseRounds P U (buf.remaining.length + 1) buf

/-- The argument `cas` is not used. -/
def getRetrievalResponse (P : Platform) (U : CacheUtils) (_cas : Bool) :
    Decoder (Option (List GetResult)) := fun buf => do
  let pos := buf.position
  if pos < 5 then return (none, buf)
  else if pos = 5 then
    let buf := buf.flip
    if atEnd U buf then return (some [], buf)
    else return (none, ← onBuffer (buf.setPosition pos))
  else
    let buf ← onBuffer (buf.setPosition (pos - 5))
    if !atEnd U buf then return (none, ← onBuffer (buf.setPosition pos))
    else
      let buf ← onBuffer (buf.setPosition pos)
      let (result, buf) ← parseLines P U buf.flip
      return (some result, buf)

theorem length_of_getBytes {buf next : ByteBuffer} {count : Nat} {bytes : List UInt8}
    (h : onBuffer (buf.getBytes count) = .ok (bytes, next)) :
    next.remaining.length + count = buf.remaining.length := by
  unfold ByteBuffer.getBytes at h
  split_ifs at h with hlimit
  · cases h
    simp only [ByteBuffer.length_remaining]
    omega
  · cases h

/-- What `parseLine` reads behind the header. -/
theorem length_of_block {buf next : ByteBuffer} {valueSize : Int} {key : List UInt8} {flags : Int}
    {cas : Option Int} {one : GetResult}
    (h : (do
      let (_, buf) ← onBuffer (buf.getBytes 1)
      let (_, buf) ← onBuffer (buf.getBytes 1)
      if valueSize < 0 then throw .negativeArraySize
      else
        let (value, buf) ← onBuffer (buf.getBytes valueSize.toNat)
        let (_, buf) ← onBuffer (buf.getBytes 1)
        let (_, buf) ← onBuffer (buf.getBytes 1)
        return (some { key, value, flags, cas }, buf) : Except ClientException _) =
      .ok (some one, next)) :
    next.remaining.length < buf.remaining.length := by
  obtain ⟨⟨cr, buf1⟩, hcr, h⟩ := bind_eq_ok_iff.mp h
  obtain ⟨⟨lf, buf2⟩, hlf, h⟩ := bind_eq_ok_iff.mp h
  split_ifs at h
  obtain ⟨⟨value, buf3⟩, hvalue, h⟩ := bind_eq_ok_iff.mp h
  obtain ⟨⟨cr', buf4⟩, hcr', h⟩ := bind_eq_ok_iff.mp h
  obtain ⟨⟨lf', buf5⟩, hlf', h⟩ := bind_eq_ok_iff.mp h
  cases h
  calc
    next.remaining.length < buf4.remaining.length := by
      have hlength := length_of_getBytes hlf'
      omega
    _ ≤ buf3.remaining.length := by
      have hlength := length_of_getBytes hcr'
      omega
    _ ≤ buf2.remaining.length := by
      have hlength := length_of_getBytes hvalue
      omega
    _ ≤ buf1.remaining.length := by
      have hlength := length_of_getBytes hlf
      omega
    _ ≤ buf.remaining.length := by
      have hlength := length_of_getBytes hcr
      omega

/-- A record that is read leaves less to read. -/
theorem length_of_parseLine {P : Platform} {U : CacheUtils} {buf next : ByteBuffer} {one : GetResult}
    (h : parseLine P U buf = .ok (some one, next)) :
    next.remaining.length < buf.remaining.length := by
  unfold parseLine at h
  simp only at h
  by_cases hfive : buf.limit - buf.position = 5
  · rw [if_pos hfive] at h
    split_ifs at h
    cases h
  rw [if_neg hfive] at h
  obtain ⟨off, -, h⟩ := bind_eq_ok_iff.mp h
  split_ifs at h
  obtain ⟨⟨bb, header⟩, hbb, h⟩ := bind_eq_ok_iff.mp h
  simp only at h
  obtain ⟨key, -, h⟩ := bind_eq_ok_iff.mp h
  obtain ⟨flagsText, -, h⟩ := bind_eq_ok_iff.mp h
  obtain ⟨flags, -, h⟩ := bind_eq_ok_iff.mp h
  have hheader := length_of_getBytes hbb
  refine Nat.lt_of_lt_of_le ?_ (show header.remaining.length ≤ buf.remaining.length by omega)
  split_ifs at h
  · obtain ⟨casText, -, h⟩ := bind_eq_ok_iff.mp h
    obtain ⟨cas, -, h⟩ := bind_eq_ok_iff.mp h
    obtain ⟨sizeText, -, h⟩ := bind_eq_ok_iff.mp h
    obtain ⟨valueSize, -, h⟩ := bind_eq_ok_iff.mp h
    exact length_of_block h
  · obtain ⟨cas, -, h⟩ := bind_eq_ok_iff.mp h
    obtain ⟨sizeText, -, h⟩ := bind_eq_ok_iff.mp h
    obtain ⟨valueSize, -, h⟩ := bind_eq_ok_iff.mp h
    exact length_of_block h

/-- More fuel than there are bytes to read changes nothing. -/
theorem parseRounds_succ {P : Platform} {U : CacheUtils} {fuel : Nat} {buf : ByteBuffer}
    (h : buf.remaining.length < fuel) :
    parseRounds P U (fuel + 1) buf = parseRounds P U fuel buf := by
  induction fuel generalizing buf with
  | zero => omega
  | succ fuel ih =>
    rw [parseRounds, parseRounds]
    cases hline : parseLine P U buf with
    | error e => rfl
    | ok line =>
      obtain ⟨one, next⟩ := line
      cases one with
      | none => rfl
      | some one =>
        have hless := length_of_parseLine hline
        simp only [ok_bind]
        rw [ih (by omega)]

theorem parseRounds_eq {P : Platform} {U : CacheUtils} {fuel : Nat} {buf : ByteBuffer}
    (h : buf.remaining.length < fuel) : parseRounds P U fuel buf = parseLines P U buf := by
  induction fuel, h using Nat.le_induction with
  | base => rfl
  | succ fuel hle ih => rw [parseRounds_succ hle, ih]

section Loop

variable {P : Platform} {U : CacheUtils} {buf next : ByteBuffer}

/-- The loop ends behind the last record. -/
theorem parseLines_end (h : parseLine P U buf = .ok (none, next)) :
    parseLines P U buf = .ok ([], next) := by
  rw [parseLines, parseRounds, h]
  rfl

theorem parseLines_error {e : ClientException} (h : parseLine P U buf = .error e) :
    parseLines P U buf = .error e := by
  rw [parseLines, parseRounds, h]
  rfl

/-- The loop goes on behind a record. -/
theorem parseLines_next {one : GetResult} (h : parseLine P U buf = .ok (some one, next)) :
    parseLines P U buf =
      (parseLines P U next).map fun rest => (one :: rest.1, rest.2) := by
  rw [parseLines, parseRounds, h]
  simp only [ok_bind]
  rw [parseRounds_eq (length_of_parseLine h)]
  cases parseLines P U next <;> rfl

end Loop

end SimpleClient

end Memcarrot
