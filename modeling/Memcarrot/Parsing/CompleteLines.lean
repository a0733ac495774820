import Memcarrot.Refinement.Parser
import Memcarrot.Util.Decimal
import Memcarrot.Wire.Stalls

open Incremental RawMemory

namespace Memcarrot.Parsing

open Wire

/-- Once the first line is complete, the parser waits for the data of a storage request only. -/
def DecidesCompleteLine (U : CacheUtils) (m : Memory) (buf : Int) (size : Nat) : Prop :=
  3 ≤ size → CRLF <:+: m.slice buf size →
    (CommandParser.parse U buf size).run m = .incomplete → AwaitsData U (m.slice buf size)

theorem not_decidesCompleteLine {U : CacheUtils} {m : Memory} {buf : Int} {size : Nat}
    (hlong : 3 ≤ size) (hline : CRLF <:+: m.slice buf size)
    (hstalls : Stalls U (m.slice buf size)) : ¬ DecidesCompleteLine U m buf size := by
  intro h
  have hinc : (CommandParser.parse U buf size).run m = .incomplete := by
    rw [Refinement.parse_run]
    exact (parse_eq_incomplete_iff (by simpa using hlong) hline).mpr (.inl hstalls)
  exact not_awaitsData_of_stalls hline hstalls (h hlong hline hinc)

theorem three_le_length_of_stalls {U : CacheUtils} {s : List UInt8} (h : Stalls U s) :
    3 ≤ s.length := by
  obtain ⟨cls, space, args, -, rfl, -⟩ := h
  have hword := three_le_length_word cls
  rw [List.length_append]
  omega

/-- A complete line is decided exactly if its command does not wait in vain. -/
theorem decidesCompleteLine_iff (U : CacheUtils) (m : Memory) (buf : Int) (size : Nat) :
    DecidesCompleteLine U m buf size ↔
      ¬ (CRLF <:+: m.slice buf size ∧ Stalls U (m.slice buf size)) := by
  constructor
  · rintro h ⟨hline, hstalls⟩
    have hlong := three_le_length_of_stalls hstalls
    rw [Memory.length_slice] at hlong
    exact not_decidesCompleteLine hlong hline hstalls h
  · intro h hlong hline hinc
    rw [Refinement.parse_run, parse_eq_incomplete_iff (by simpa using hlong) hline] at hinc
    exact hinc.resolve_left fun hstalls => h ⟨hline, hstalls⟩

theorem not_decidesCompleteLine_incr :
    ¬ DecidesCompleteLine decimalUtils (Memory.ofBytes 100 (ascii "incr k\r\n")) 100 8 := by
  have hslice : (Memory.ofBytes 100 (ascii "incr k\r\n")).slice 100 8 =
      ascii "incr k" ++ CRLF := by decide +kernel
  refine not_decidesCompleteLine (by decide) ?_ ?_
  · rw [hslice]
    exact ⟨ascii "incr k", [], by simp⟩
  · rw [hslice]
    refine ⟨.INCR, true, ascii "k" ++ CRLF, ⟨0x6B, CRLF, rfl, by decide, by simp⟩, rfl, ?_⟩
    exact .breaksOff ⟨ascii "k", by decide⟩ [] _ [] [] CRLF rfl .nil ⟨[LF], .inl rfl⟩

end Memcarrot.Parsing
