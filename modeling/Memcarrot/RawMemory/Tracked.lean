import Memcarrot.RawMemory.Write

namespace RawMemory

/-- A number of addresses from one on. -/
structure Range where
  ptr : Int
  size : Int
  deriving DecidableEq, Repr

def Range.Inside (lo hi : Int) (r : Range) : Prop := lo ≤ r.ptr ∧ r.ptr + r.size ≤ hi

/-- Memory that a program writes to, and the ranges it has written or let a callee write in. -/
structure Tracked where
  memory : Memory
  ranges : List Range := []

namespace Tracked

/-- A callee has written in ranges that were passed to it. -/
def call (ranges : List Range) (memory : Memory) (o : Tracked) : Tracked :=
  { memory, ranges := o.ranges ++ ranges }

def copy (bytes : List UInt8) (ptr : Int) (o : Tracked) : Tracked :=
  o.call [⟨ptr, bytes.length⟩] (o.memory.write ptr bytes)

def putByte (b : UInt8) (ptr : Int) (o : Tracked) : Tracked := o.copy [b] ptr

/-- All that has been written since memory was `m` lies in `[lo, hi)`. -/
structure Within (lo hi : Int) (m : Memory) (o : Tracked) : Prop where
  ranges : ∀ r ∈ o.ranges, r.Inside lo hi
  outside : ∀ a, a < lo ∨ hi ≤ a → o.memory a = m a

variable {lo hi : Int} {m : Memory} {o : Tracked}

theorem Within.start (lo hi : Int) (m : Memory) : ({ memory := m } : Tracked).Within lo hi m where
  ranges _ h := nomatch h
  outside _ _ := rfl

theorem within_call {ranges : List Range} {memory : Memory}
    (hmemory : (∀ r ∈ ranges, r.Inside lo hi) → ∀ a, a < lo ∨ hi ≤ a → memory a = o.memory a) :
    (o.call ranges memory).Within lo hi m ↔ o.Within lo hi m ∧ ∀ r ∈ ranges, r.Inside lo hi := by
  constructor
  · rintro ⟨hranges, houtside⟩
    have hinside : ∀ r ∈ ranges, r.Inside lo hi :=
      fun r hr => hranges r (List.mem_append_right _ hr)
    refine ⟨⟨fun r hr => hranges r (List.mem_append_left _ hr), fun a ha => ?_⟩, hinside⟩
    rw [← hmemory hinside a ha]
    exact houtside a ha
  · rintro ⟨⟨hranges, houtside⟩, hinside⟩
    refine ⟨fun r hr => ?_, fun a ha => (hmemory hinside a ha).trans (houtside a ha)⟩
    exact (List.mem_append.mp hr).elim (hranges r) (hinside r)

theorem within_copy {bytes : List UInt8} {ptr : Int} : (o.copy bytes ptr).Within lo hi m ↔
    o.Within lo hi m ∧ lo ≤ ptr ∧ ptr + bytes.length ≤ hi := by
  rw [copy, within_call, List.forall_mem_singleton, Range.Inside]
  rw [List.forall_mem_singleton]
  rintro ⟨hlo, hhi⟩ a ha
  simp only at hlo hhi
  exact Memory.write_of_outside _ _ (by omega)

theorem within_putByte {b : UInt8} {ptr : Int} : (o.putByte b ptr).Within lo hi m ↔
    o.Within lo hi m ∧ lo ≤ ptr ∧ ptr < hi := by
  have hsize : ptr + ([b].length : Int) ≤ hi ↔ ptr < hi := Int.add_one_le_iff
  rw [putByte, within_copy, hsize]

/-- The bytes stand at an address. -/
def Holds (ptr : Int) (bytes : List UInt8) (o : Tracked) : Prop :=
  o.memory.slice ptr bytes.length = bytes

theorem Holds.nil (ptr : Int) (o : Tracked) : o.Holds ptr [] := rfl

/-- Bytes that are copied behind others extend them. -/
theorem Holds.copy {ptr dst : Int} {bytes : List UInt8} (h : o.Holds ptr bytes)
    (more : List UInt8) (hdst : dst = ptr + bytes.length) :
    (o.copy more dst).Holds ptr (bytes ++ more) := by
  have happend := Memory.slice_write_append o.memory ptr bytes.length more
  rw [hdst, Holds, List.length_append]
  rw [show o.memory.slice ptr bytes.length = bytes from h] at happend
  exact happend

theorem Holds.copy_start (ptr : Int) (bytes : List UInt8) (o : Tracked) :
    (o.copy bytes ptr).Holds ptr bytes :=
  (Holds.nil ptr o).copy bytes (Int.add_zero ptr).symm

end Tracked

end RawMemory
