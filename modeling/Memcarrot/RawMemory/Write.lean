import Memcarrot.RawMemory.Access

namespace RawMemory

namespace Memory

/-- The memory with the given bytes from address `ptr` on. -/
def write (m : Memory) (ptr : Int) (bytes : List UInt8) : Memory := fun a =>
  if ptr ≤ a ∧ a < ptr + bytes.length then bytes.getD (a - ptr).toNat 0 else m a

theorem write_of_outside (m : Memory) {ptr a : Int} (bytes : List UInt8)
    (h : a < ptr ∨ ptr + bytes.length ≤ a) : m.write ptr bytes a = m a := by
  rw [write, if_neg (by omega)]

theorem slice_write_self (m : Memory) (ptr : Int) (bytes : List UInt8) :
    (m.write ptr bytes).slice ptr bytes.length = bytes := by
  have hagree : (m.write ptr bytes).slice ptr bytes.length =
      (Memory.ofBytes ptr bytes).slice ptr bytes.length :=
    slice_congr fun a hlo hhi => by simp [write, Memory.ofBytes, hlo, hhi]
  rw [hagree]
  simpa using slice_ofBytes ptr [] bytes

theorem slice_write_before (m : Memory) {ptr dst : Int} {n : Nat} (h : ptr + n ≤ dst)
    (bytes : List UInt8) : (m.write dst bytes).slice ptr n = m.slice ptr n :=
  slice_congr fun _ _ hhi => write_of_outside m bytes (.inl (by omega))

/-- Bytes written directly behind a slice extend it. -/
theorem slice_write_append (m : Memory) (ptr : Int) (n : Nat) (bytes : List UInt8) :
    (m.write (ptr + n) bytes).slice ptr (n + bytes.length) = m.slice ptr n ++ bytes := by
  rw [slice_add, slice_write_self, slice_write_before m (Int.le_refl _)]

end Memory

end RawMemory
