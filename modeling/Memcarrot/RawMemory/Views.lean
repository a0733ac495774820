import Memcarrot.RawMemory.Access
import Memcarrot.Incremental.Cursor

open Incremental

namespace RawMemory

/-- The cursor shows what memory holds from its position up to the address `hi`. -/
structure Views (m : Memory) (hi : Int) (c : Cursor UInt8) : Prop where
  slice_eq : m.slice c.ptr c.rest.length = c.rest
  ends : c.ptr + c.rest.length = hi

theorem Views.of_slice (m : Memory) (ptr : Int) (n : Nat) :
    Views m (ptr + n) ⟨ptr, m.slice ptr n⟩ :=
  ⟨by simp, by simp⟩

theorem Views.split {m : Memory} {hi ptr : Int} {front back : List UInt8}
    (h : Views m hi ⟨ptr, front ++ back⟩) :
    m.slice ptr front.length = front ∧ Views m hi ⟨ptr + front.length, back⟩ := by
  obtain ⟨hslice, hends⟩ := h
  simp only [List.length_append] at hslice hends
  rw [Memory.slice_add] at hslice
  obtain ⟨hfront, hback⟩ := List.append_inj hslice (by simp)
  exact ⟨hfront, hback, by simp only; omega⟩

theorem Views.head {m : Memory} {hi ptr : Int} {b : UInt8} {bs : List UInt8}
    (h : Views m hi ⟨ptr, b :: bs⟩) : m ptr = b := by
  have hslice := h.slice_eq
  simp only [List.length_cons, Memory.slice] at hslice
  exact (List.cons.inj hslice).1

theorem Views.tail {m : Memory} {hi ptr : Int} {b : UInt8} {bs : List UInt8}
    (h : Views m hi ⟨ptr, b :: bs⟩) : Views m hi ⟨ptr + 1, bs⟩ := by
  have hcons : Views m hi ⟨ptr, [b] ++ bs⟩ := h
  simpa using hcons.split.2

/-- The cursor stands `off` bytes behind `base`, inside the range `[lo, hi)` and its end. -/
structure At (m : Memory) (lo hi base off : Int) (c : Cursor UInt8) : Prop where
  ptr_eq : base + off = c.ptr
  low : lo ≤ c.ptr
  views : Views m hi c

namespace At

variable {m : Memory} {lo hi base off : Int} {ptr : Int}

theorem split {front back : List UInt8} (h : At m lo hi base off ⟨ptr, front ++ back⟩) :
    At m lo hi base (off + front.length) ⟨ptr + front.length, back⟩ := by
  obtain ⟨hptr, hlow, hviews⟩ := h
  simp only at hptr hlow
  exact ⟨by simp only; omega, by simp only; omega, hviews.split.2⟩

theorem tail {b : UInt8} {bs : List UInt8} (h : At m lo hi base off ⟨ptr, b :: bs⟩) :
    At m lo hi base (off + 1) ⟨ptr + 1, bs⟩ := by
  have hcons : At m lo hi base off ⟨ptr, [b] ++ bs⟩ := h
  simpa using hcons.split

/-- Reading the byte under the cursor. -/
theorem byte {ε : Type} {b : UInt8} {bs : List UInt8}
    (h : At m lo hi base off ⟨ptr, b :: bs⟩) :
    Access.Simulates m lo hi Eq (Access.byte (base + off) : Access ε UInt8) (.done b) := by
  obtain ⟨hptr, hlow, hviews⟩ := h
  have hends := hviews.ends
  simp only [List.length_cons] at hptr hlow hends
  rw [hptr, ← hviews.head]
  exact Access.Simulates.byte hlow (by omega)

/-- Reading a run of bytes that starts under the cursor. -/
theorem bytes {ε : Type} {front back : List UInt8}
    (h : At m lo hi base off ⟨ptr, front ++ back⟩) :
    Access.Simulates m lo hi Eq
      (Access.bytes (base + off) front.length : Access ε (List UInt8)) (.done front) := by
  obtain ⟨hptr, hlow, hviews⟩ := h
  have hends := hviews.ends
  simp only [List.length_append] at hptr hlow hends
  have hslice : m.slice (base + off) front.length = front := by rw [hptr]; exact hviews.split.1
  have hread : Access.Simulates m lo hi Eq
      (Access.bytes (base + off) front.length : Access ε (List UInt8))
      (.done (m.slice (base + off) front.length)) := .bytes (by omega) (by omega)
  rwa [hslice] at hread

end At

end RawMemory
