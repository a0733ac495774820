import Memcarrot.Incremental.Session
import Memcarrot.Parsing.MemorySafety
import Memcarrot.Wire.Operations
import Memcarrot.Wire.Prefixes

open Incremental RawMemory

namespace Memcarrot

open Wire

namespace CommandProcessor

variable {σ : Type} {services : Services σ} {m : Memory} {inputPtr : Int} {size : Nat}
  {rest : List UInt8}

/-- A request at the beginning of the input is executed, wherever it is and whatever follows. -/
theorem process_request {r : Request services.utils} (hptr : 0 < inputPtr)
    (h : m.slice inputPtr size = r.bytes ++ rest) (outSize : Int) (s : σ) :
    process services m inputPtr size outSize s =
      let run := r.operation.execute services outSize s
      { store := run.store, chunks := run.chunks, lastCommand := some (r.command inputPtr)
        executed := some r.operation, result := run.outcome.result } := by
  have hparse : (CommandParser.parse services.utils inputPtr size).run m =
      .done (r.command inputPtr) := by
    rw [Refinement.parse_run, h]
    exact r.parse_eq inputPtr rest
  have hsafe := (Parsing.safeSlices_request h).isMemorySafe hptr
  rw [Parsing.process_eq_of_isMemorySafe hparse hsafe, r.operation_command h]

/-- A request that is cut off is left for later. -/
theorem process_cut {r : Request services.utils} (hsingle : r.SingleSpaced)
    (hcut : m.slice inputPtr size <+: r.bytes) (hne : m.slice inputPtr size ≠ r.bytes)
    (outSize : Int) (s : σ) :
    process services m inputPtr size outSize s = { store := s, result := .incomplete } := by
  have hparse : (CommandParser.parse services.utils inputPtr size).run m = .incomplete := by
    rw [Refinement.parse_run]
    exact r.parse_cut hsingle hcut hne inputPtr
  unfold process
  rw [hparse]

/-- The reply to a request that is alone in the input buffer, with the store after it, if `process`
returns one that fits into the output buffer. -/
def feed (services : Services σ) (bufferSize : Nat) (inputPtr : Int)
    (r : Request services.utils) (s : σ) : Option (List UInt8 × σ) :=
  let p := process services (Memory.ofBytes inputPtr r.bytes) inputPtr r.bytes.length bufferSize s
  match p.result with
  | .response bytes =>
    if bytes.length ≤ bufferSize then some (p.chunks.flatten ++ bytes, p.store) else none
  | _ => none

/-- The requests of a connection, each fed alone. -/
def protocol (services : Services σ) (bufferSize : Nat) (inputPtr : Int) :
    Protocol (Request services.utils) UInt8 UInt8 σ where
  items := Request.bytes
  serve := feed services bufferSize inputPtr

theorem feed_eq_some_iff {bufferSize : Nat} (hptr : 0 < inputPtr) {r : Request services.utils}
    {s store : σ} {out : List UInt8} :
    feed services bufferSize inputPtr r s = some (out, store) ↔
      ∃ bytes, (r.operation.execute services bufferSize s).outcome = .response bytes ∧
        bytes.length ≤ bufferSize ∧
        out = (r.operation.execute services bufferSize s).chunks.flatten ++ bytes ∧
        store = (r.operation.execute services bufferSize s).store := by
  have hslice : (Memory.ofBytes inputPtr r.bytes).slice inputPtr r.bytes.length =
      r.bytes ++ [] := by
    simpa using Memory.slice_ofBytes inputPtr [] r.bytes
  unfold feed
  rw [process_request hptr hslice]
  cases houtcome : (r.operation.execute services bufferSize s).outcome with
  | response bytes =>
    simp only [houtcome, Outcome.result, Option.ite_none_right_eq_some, Option.some.injEq,
      Prod.mk.injEq, Outcome.response.injEq]
    constructor
    · rintro ⟨hfits, rfl, rfl⟩
      exact ⟨bytes, rfl, hfits, rfl, rfl⟩
    · rintro ⟨_, rfl, hfits, rfl, rfl⟩
      exact ⟨hfits, rfl, rfl⟩
  | bufferOverflow => simp [houtcome, Outcome.result]
  | exit => simp [houtcome, Outcome.result]

end CommandProcessor

end Memcarrot
