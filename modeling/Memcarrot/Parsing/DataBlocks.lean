import Memcarrot.Parsing.Grammar

open Incremental RawMemory

namespace Memcarrot

namespace Wire

/-- The two bytes that close the data block. -/
def StorageRequest.terminator {U : CacheUtils} (r : StorageRequest U) : List UInt8 :=
  r.block.drop r.size.value.toNat

theorem StorageRequest.length_terminator {U : CacheUtils} (r : StorageRequest U) :
    r.terminator.length = 2 := by
  have hblock := r.block_length
  have hsize := r.size_range
  rw [terminator, List.length_drop]
  omega

/-- The bytes behind the value of a storage command. -/
theorem StorageRequest.slice_terminator {U : CacheUtils} {m : Memory} {buf : Int} {size : Nat}
    {rest : List UInt8} {r : StorageRequest U} (h : m.slice buf size = r.bytes ++ rest) :
    m.slice ((r.command buf).valPtr + (r.command buf).valSize) 2 = r.terminator ∧
      (r.command buf).valPtr + (r.command buf).valSize + 2 ≤ buf + size := by
  have hsize := r.size_range
  have hblock : r.block = r.value ++ r.terminator := (List.take_append_drop _ _).symm
  have hbytes : r.bytes ++ rest =
      (r.cls.word ++ SP :: r.header ++ r.value) ++ (r.terminator ++ rest) := by
    simp only [StorageRequest.bytes, hblock, List.append_assoc, List.cons_append]
  have hptr : (r.command buf).valPtr + (r.command buf).valSize =
      buf + ((r.cls.word ++ SP :: r.header ++ r.value).length : Int) := by
    simp only [StorageRequest.command, List.length_append, List.length_cons, r.length_value]
    omega
  have hmiddle := Memory.slice_middle (h.trans hbytes)
  have hlength := congrArg List.length (h.trans hbytes)
  have hback : (r.terminator ++ rest).length = 2 + rest.length := by
    rw [List.length_append, r.length_terminator]
  rw [Memory.length_slice, List.length_append, hback] at hlength
  rw [r.length_terminator] at hmiddle
  rw [hptr]
  exact ⟨hmiddle, by omega⟩

end Wire

open Wire

namespace Parsing

/-- The value of every storage command that is accepted is followed by CR LF in the buffer. -/
def TerminatesBlocks (U : CacheUtils) (m : Memory) (buf : Int) (size : Nat) : Prop :=
  ∀ cmd, (CommandParser.parse U buf size).run m = .done cmd → cmd.cls.isStorage = true →
    m.slice (cmd.valPtr + cmd.valSize) 2 = CRLF ∧ cmd.valPtr + cmd.valSize + 2 ≤ buf + size

/-- Storage commands are accepted with a terminated data block only, unless the buffer begins with
a storage line and a block of the declared length that two other bytes close. -/
theorem terminatesBlocks_iff (U : CacheUtils) (m : Memory) (buf : Int) (size : Nat) :
    TerminatesBlocks U m buf size ↔
      ¬ ∃ (r : StorageRequest U) (rest : List UInt8),
        m.slice buf size = r.bytes ++ rest ∧ r.terminator ≠ CRLF := by
  constructor
  · rintro h ⟨r, rest, hbytes, hother⟩
    have hregular : Regular U ⟨buf, m.slice buf size⟩ (r.command buf) :=
      ⟨.storage r, rest, hbytes, rfl⟩
    have hparse := parse_run_eq_done_iff.mpr (.inl hregular)
    obtain ⟨hcrlf, -⟩ := h _ hparse r.isStorage
    rw [(r.slice_terminator hbytes).1] at hcrlf
    exact hother hcrlf
  · intro h cmd hparse hcls
    obtain ⟨r, rest, hbytes, rfl, -, -⟩ := (parse_grammar hparse).1 hcls
    obtain ⟨hslice, hend⟩ := r.slice_terminator hbytes
    rw [hslice]
    refine ⟨?_, hend⟩
    by_contra hother
    exact h ⟨r, rest, hbytes, hother⟩

/-- A value that is longer than the line says. -/
theorem not_terminatesBlocks_set :
    ¬ TerminatesBlocks decimalUtils (Memory.ofBytes 100 (ascii "set k 0 0 2\r\nabcd\r\n"))
      100 19 := by
  intro h
  have hparse : (CommandParser.parse decimalUtils 100 (19 : Nat)).run
      (Memory.ofBytes 100 (ascii "set k 0 0 2\r\nabcd\r\n")) =
        .done { cls := .SET, keyPtr := 104, keySize := 1, valPtr := 113, valSize := 2
                consumed := 13 } := by
    decide +kernel
  exact absurd (h _ hparse rfl).1 (by decide +kernel)

end Parsing

end Memcarrot
