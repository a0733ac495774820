import Memcarrot.Parsing.Reads

open Incremental RawMemory

namespace Memcarrot

@[simp] theorem MemcachedCommand.inputConsumed_move (shift : Int) (cmd : MemcachedCommand) :
    (cmd.move shift).inputConsumed = cmd.inputConsumed := rfl

namespace Parsing

/-- What is decided about a request with a key command stays decided, and in the same way, when
more bytes arrive and the bytes are moved. -/
theorem parse_decision_stable (U : CacheUtils) {m m' : Memory} {buf buf' : Int} {size more : Nat}
    {cls : CommandClass} (hcls : cls.isAbstract = true)
    (hfirst : Wire.firstToken (m.slice buf size) = cls.word)
    (hstart : m'.slice buf' size = m.slice buf size)
    (hdecided : (CommandParser.parse U buf size).run m ≠ .incomplete) :
    Verdict.Rel
      (fun cmd cmd' => cmd' = cmd.move (buf' - buf) ∧ cmd'.inputConsumed = cmd.inputConsumed)
      ((CommandParser.parse U buf size).run m)
      ((CommandParser.parse U buf' ((size + more : Nat) : Int)).run m') := by
  have hmove : (⟨buf, m.slice buf size⟩ : Wire.Input).move (buf' - buf)
      (m'.slice (buf' + size) more) = ⟨buf', m'.slice buf' (size + more)⟩ := by
    rw [Memory.slice_add, hstart]
    simp only [Cursor.move, Cursor.mk.injEq, and_true]
    omega
  have hbelow := Wire.parse_below U ⟨buf, m.slice buf size⟩ (buf' - buf)
    (m'.slice (buf' + size) more) (.inl ⟨cls, hcls, hfirst⟩)
  rw [hmove, ← Refinement.parse_run, ← Refinement.parse_run] at hbelow
  apply (hbelow.rel_of_ne_incomplete hdecided).mono
  rintro cmd _ rfl
  exact ⟨rfl, rfl⟩

theorem parse_decision_stable_delete :
    let m := Memory.ofBytes 100 (ascii "delete key\r\nget")
    let m' := Memory.ofBytes 7 (ascii "delete key\r\nset a")
    Verdict.Rel
      (fun cmd cmd' => cmd' = cmd.move (7 - 100) ∧ cmd'.inputConsumed = cmd.inputConsumed)
      ((CommandParser.parse decimalUtils 100 (12 : Nat)).run m)
      ((CommandParser.parse decimalUtils 7 ((12 + 5 : Nat) : Int)).run m') :=
  parse_decision_stable decimalUtils (show CommandClass.DELETE.isAbstract = true from rfl)
    (by decide +kernel) (by decide +kernel) (by decide +kernel)

end Parsing

end Memcarrot
