import Memcarrot.Refinement.Parser
import Memcarrot.Util.Decimal
import Memcarrot.Wire.Failures

open Incremental RawMemory

namespace Memcarrot.Parsing

/-- The parser ends with no exception but those that `process` catches. -/
def FailsAsDeclared (U : CacheUtils) (m : Memory) (buf : Int) (size : Nat) : Prop :=
  ∀ e, (CommandParser.parse U buf size).run m = .failed e → e.isIllegalFormat = true

/-- The parser fails as declared exactly on the inputs other than a bare gat or gats. -/
theorem failsAsDeclared_iff (U : CacheUtils) (m : Memory) (buf : Int) (size : Nat) :
    FailsAsDeclared U m buf size ↔ ¬ Wire.BareTouch (m.slice buf size) := by
  unfold FailsAsDeclared
  rw [Refinement.parse_run]
  constructor
  · intro h hbare
    have hfails := h _ (Wire.parse_of_bareTouch (c := ⟨buf, m.slice buf size⟩) hbare)
    cases hfails
  · intro h
    exact fun e he => (Wire.illegalFormatOnly_parse U h e he).1

theorem not_failsAsDeclared_gat :
    ¬ FailsAsDeclared decimalUtils (Memory.ofBytes 100 (ascii "gat\r\n")) 100 5 := by
  intro h
  have hfails := h .negativeArraySize (by decide +kernel)
  cases hfails

end Memcarrot.Parsing
