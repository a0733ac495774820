import Mathlib.Data.Nat.Basic

namespace Memcarrot

/-- The exceptions of a buffer. -/
inductive BufferException where
  | bufferUnderflow
  | indexOutOfBounds
  | illegalArgument
  deriving DecidableEq, Repr

/-- A `java.nio.ByteBuffer`, whose capacity is the number of its bytes. -/
structure ByteBuffer where
  bytes : List UInt8
  position : Nat
  limit : Nat
  position_le : position ≤ limit
  limit_le : limit ≤ bytes.length
  deriving DecidableEq, Repr

namespace ByteBuffer

/-- A cleared buffer into which bytes were read, before the bytes that were there. -/
def received (bytes stale : List UInt8) : ByteBuffer where
  bytes := bytes ++ stale
  position := bytes.length
  limit := (bytes ++ stale).length
  position_le := by simp
  limit_le := Nat.le_refl _

def flip (buf : ByteBuffer) : ByteBuffer where
  bytes := buf.bytes
  position := 0
  limit := buf.position
  position_le := Nat.zero_le _
  limit_le := Nat.le_trans buf.position_le buf.limit_le

/-- What is between the position and the limit. -/
def remaining (buf : ByteBuffer) : List UInt8 :=
  (buf.bytes.take buf.limit).drop buf.position

/-- `position(newPosition)` -/
def setPosition (buf : ByteBuffer) (newPosition : Nat) : Except BufferException ByteBuffer :=
  if h : newPosition ≤ buf.limit then
    .ok { buf with position := newPosition, position_le := h }
  else .error .illegalArgument

/-- `get(index)` -/
def getAt (buf : ByteBuffer) (index : Nat) : Except BufferException UInt8 :=
  match (buf.bytes.take buf.limit)[index]? with
  | some b => .ok b
  | none => .error .indexOutOfBounds

/-- `get(dst)` for an array of `count` bytes. -/
def getBytes (buf : ByteBuffer) (count : Nat) :
    Except BufferException (List UInt8 × ByteBuffer) :=
  if h : buf.position + count ≤ buf.limit then
    .ok (buf.remaining.take count, { buf with position := buf.position + count, position_le := h })
  else .error .bufferUnderflow

section Rules

variable {buf : ByteBuffer} {rest : List UInt8}

theorem remaining_flip_received (bytes stale : List UInt8) :
    (received bytes stale).flip.remaining = bytes := by
  simp [remaining, flip, received]

theorem getBytes_flip_received (bytes stale : List UInt8) {count : Nat} (h : count ≤ bytes.length) :
    ∃ buf, (received bytes stale).flip.getBytes count = .ok (bytes.take count, buf) := by
  have hlimit : (received bytes stale).flip.position + count ≤ (received bytes stale).flip.limit := by
    simpa [flip, received] using h
  exact ⟨_, by rw [getBytes, dif_pos hlimit, remaining_flip_received]⟩

theorem getAt_received {bytes : List UInt8} (stale : List UInt8) {index : Nat} {b : UInt8}
    (h : bytes[index]? = some b) : (received bytes stale).getAt index = .ok b := by
  obtain ⟨hindex, -⟩ := List.getElem?_eq_some_iff.mp h
  have hbyte : ((bytes ++ stale).take (bytes ++ stale).length)[index]? = some b := by
    rw [List.take_length, List.getElem?_append_left hindex, h]
  simp only [getAt, received, hbyte]

/-- The position is moved back to a byte that was received, and again behind the last one. -/
theorem setPosition_received (bytes stale : List UInt8) {newPosition : Nat}
    (h : newPosition ≤ bytes.length) :
    ∃ buf, (received bytes stale).setPosition newPosition = .ok buf ∧
      buf.remaining = bytes.drop newPosition ++ stale ∧
      buf.setPosition bytes.length = .ok (received bytes stale) := by
  have hbytes : bytes.length ≤ (received bytes stale).limit := by simp [received]
  refine ⟨_, by rw [setPosition, dif_pos (Nat.le_trans h hbytes)], ?_, ?_⟩
  · simp only [remaining, received, List.take_length]
    rw [List.drop_append_of_le_length h]
  · rw [setPosition, dif_pos hbytes]
    rfl

theorem length_remaining (buf : ByteBuffer) :
    buf.remaining.length = buf.limit - buf.position := by
  have hlimit := buf.limit_le
  simp only [remaining, List.length_drop, List.length_take]
  omega

theorem getAt_position {index : Nat} {b : UInt8} (h : buf.remaining[index]? = some b) :
    buf.getAt (buf.position + index) = .ok b := by
  rw [remaining, List.getElem?_drop] at h
  rw [getAt, h]

/-- The next bytes of a buffer. -/
theorem getBytes_eq {front : List UInt8} (h : buf.remaining = front ++ rest) :
    ∃ next, buf.getBytes front.length = .ok (front, next) ∧ next.remaining = rest := by
  have hlength := congrArg List.length h
  rw [length_remaining, List.length_append] at hlength
  have hlimit : buf.position + front.length ≤ buf.limit := by
    have hposition := buf.position_le
    omega
  refine ⟨_, by rw [getBytes, dif_pos hlimit, h, List.take_left], ?_⟩
  have hrest : buf.remaining.drop front.length = rest := by rw [h, List.drop_left]
  rwa [remaining, List.drop_drop] at hrest

theorem getByte_eq {b : UInt8} (h : buf.remaining = b :: rest) :
    ∃ next, buf.getBytes 1 = .ok ([b], next) ∧ next.remaining = rest :=
  @getBytes_eq buf rest [b] h

end Rules

end ByteBuffer

end Memcarrot
