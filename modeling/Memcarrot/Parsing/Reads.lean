import Memcarrot.Refinement.Parser
import Memcarrot.Util.Decimal
import Memcarrot.Wire.Stability

open Incremental RawMemory

namespace Memcarrot.Parsing

/-- The same bytes at another address are parsed to the same command, with its addresses shifted
as the buffer is. -/
theorem parse_relocated (U : CacheUtils) {m m' : Memory} {buf buf' : Int} {size : Nat}
    (h : m'.slice buf' size = m.slice buf size) :
    Verdict.Rel (Wire.MovedCommand (buf' - buf)) ((CommandParser.parse U buf size).run m)
      ((CommandParser.parse U buf' size).run m') := by
  have hmove (from_ to_ : Int) (s : List UInt8) :
      (⟨from_, s⟩ : Wire.Input).move (to_ - from_) [] = ⟨to_, s⟩ := by
    simp only [Cursor.move, List.append_nil, Cursor.mk.injEq, and_true]
    omega
  rw [Refinement.parse_run, Refinement.parse_run, h]
  have hthere := Wire.parse_below U ⟨buf, m.slice buf size⟩ (buf' - buf) [] (.inr rfl)
  have hback := Wire.parse_below U ⟨buf', m.slice buf size⟩ (buf - buf') [] (.inr rfl)
  rw [hmove] at hthere hback
  exact hthere.rel hback

/-- The parser reads received bytes only, so its result depends on nothing else that the buffer
holds: neither on other bytes around the received ones nor on where they lie. -/
theorem parse_reads_received (U : CacheUtils) (m : Memory) (buf : Int) (size : Nat) :
    (∀ a ∈ (CommandParser.parse U buf size).reads m, buf ≤ a ∧ a < buf + size) ∧
      (∀ m' : Memory, (∀ a, buf ≤ a → a < buf + size → m' a = m a) →
        (CommandParser.parse U buf size).run m' = (CommandParser.parse U buf size).run m) ∧
      ∀ (m' : Memory) (buf' : Int), m'.slice buf' size = m.slice buf size →
        Verdict.Rel (Wire.MovedCommand (buf' - buf)) ((CommandParser.parse U buf size).run m)
          ((CommandParser.parse U buf' size).run m') := by
  have hinside := (Refinement.parse_simulates U m buf size).reads_inside
  refine ⟨hinside, fun m' hagree => ?_, fun m' buf' h => parse_relocated U h⟩
  exact Access.run_eq_of_agree fun a ha => hagree a (hinside a ha).1 (hinside a ha).2

end Memcarrot.Parsing
