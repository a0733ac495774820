import Memcarrot.Incremental.Verdict
import Mathlib.Data.List.Basic
import Mathlib.Data.List.TakeWhile

namespace Incremental

/-- A position in a stream together with the items received after it. -/
structure Cursor (β : Type) where
  ptr : Int
  rest : List β
  deriving DecidableEq, Repr

/-- A run of items of the stream and the position of its first item. -/
structure Chunk (β : Type) where
  ptr : Int
  items : List β
  deriving DecidableEq, Repr

/-- The same input at another place of the stream, after more items have arrived. -/
def Cursor.move {β : Type} (shift : Int) (more : List β) (c : Cursor β) : Cursor β :=
  ⟨c.ptr + shift, c.rest ++ more⟩

def Chunk.move {β : Type} (shift : Int) (chunk : Chunk β) : Chunk β :=
  ⟨chunk.ptr + shift, chunk.items⟩

@[simp] theorem Cursor.move_ptr {β : Type} (shift : Int) (more : List β) (c : Cursor β) :
    (c.move shift more).ptr = c.ptr + shift := rfl

@[simp] theorem Cursor.move_rest {β : Type} (shift : Int) (more : List β) (c : Cursor β) :
    (c.move shift more).rest = c.rest ++ more := rfl

@[simp] theorem Chunk.move_ptr {β : Type} (shift : Int) (chunk : Chunk β) :
    (chunk.move shift).ptr = chunk.ptr + shift := rfl

@[simp] theorem Chunk.move_items {β : Type} (shift : Int) (chunk : Chunk β) :
    (chunk.move shift).items = chunk.items := rfl

/-- Reads the longest run of kept items, which ends only at a received item that is not kept. -/
def span {ε β : Type} (keep : β → Bool) (c : Cursor β) : Verdict ε (Chunk β × Cursor β) :=
  match c.rest.dropWhile keep with
  | [] => .incomplete
  | stop :: rest =>
    .done (⟨c.ptr, c.rest.takeWhile keep⟩,
      ⟨c.ptr + (c.rest.takeWhile keep).length, stop :: rest⟩)

theorem takeWhile_append_stop {β : Type} {keep : β → Bool} {run : List β} {stop : β}
    (rest : List β) (hrun : ∀ x ∈ run, keep x = true) (hstop : keep stop = false) :
    (run ++ stop :: rest).takeWhile keep = run := by
  rw [List.takeWhile_append_of_pos hrun]
  simp [hstop]

theorem dropWhile_append_stop {β : Type} {keep : β → Bool} {run : List β} {stop : β}
    (rest : List β) (hrun : ∀ x ∈ run, keep x = true) (hstop : keep stop = false) :
    (run ++ stop :: rest).dropWhile keep = stop :: rest := by
  rw [List.dropWhile_append_of_pos hrun]
  simp [hstop]

/-- A run is read exactly when the received items are that run followed by an item that
ends it. -/
theorem span_eq_done_iff {ε β : Type} {keep : β → Bool} {c : Cursor β} {run : Chunk β}
    {next : Cursor β} :
    (span keep c : Verdict ε _) = .done (run, next) ↔
      c.rest = run.items ++ next.rest ∧ run.ptr = c.ptr ∧
        next.ptr = c.ptr + run.items.length ∧ (∀ x ∈ run.items, keep x = true) ∧
        ∃ stop rest, next.rest = stop :: rest ∧ keep stop = false := by
  constructor
  · intro h
    unfold span at h
    split at h
    · cases h
    · next stop rest hdrop =>
      cases h
      refine ⟨?_, rfl, rfl, fun x hx => List.mem_takeWhile_imp hx, stop, rest, rfl, ?_⟩
      · rw [← hdrop]
        exact (List.takeWhile_append_dropWhile).symm
      · have hne : c.rest.dropWhile keep ≠ [] := by simp [hdrop]
        have hhead := List.head_dropWhile_not keep hne
        simpa [hdrop] using hhead
  · rintro ⟨hrest, hptr, hnext, hkeep, stop, rest, hstop, hend⟩
    obtain ⟨ptr, items⟩ := run
    obtain ⟨nextPtr, nextRest⟩ := next
    obtain ⟨cptr, crest⟩ := c
    simp only at *
    subst hrest hptr hnext hstop
    simp [span, dropWhile_append_stop rest hkeep hend, takeWhile_append_stop rest hkeep hend]

theorem span_eq_incomplete_iff {ε β : Type} {keep : β → Bool} {c : Cursor β} :
    (span keep c : Verdict ε _) = .incomplete ↔ ∀ x ∈ c.rest, keep x = true := by
  rw [← List.dropWhile_eq_nil_iff]
  unfold span
  split <;> simp_all

theorem span_ne_failed {ε β : Type} {keep : β → Bool} {c : Cursor β} {e : ε} :
    span keep c ≠ .failed e := by
  unfold span
  split <;> simp

/-- What is read from a cursor and from the same cursor moved: values related by `R`, and the
input behind them moved in the same way. -/
def Moved {α α' β : Type} (R : α → α' → Prop) (shift : Int) (more : List β) (read : α × Cursor β)
    (read' : α' × Cursor β) : Prop :=
  R read.1 read'.1 ∧ read'.2 = read.2.move shift more

theorem span_move {ε β : Type} {keep : β → Bool} {c : Cursor β} {run : Chunk β}
    {next : Cursor β} (shift : Int) (more : List β)
    (h : (span keep c : Verdict ε _) = .done (run, next)) :
    (span keep (c.move shift more) : Verdict ε _) =
      .done (run.move shift, next.move shift more) := by
  obtain ⟨hrest, hptr, hnext, hkeep, stop, rest, hstop, hend⟩ := span_eq_done_iff.mp h
  rw [span_eq_done_iff]
  refine ⟨by simp [hrest], by simp [hptr], ?_, hkeep, stop, rest ++ more, by simp [hstop], hend⟩
  simp only [Cursor.move_ptr, Chunk.move_items, hnext]
  omega

/-- Reading a run decides nothing that more items could change. -/
theorem span_below {ε β : Type} (keep : β → Bool) (c : Cursor β) (shift : Int) (more : List β) :
    Verdict.Below (Moved (fun run run' => run' = run.move shift) shift more)
      (span keep c : Verdict ε _) (span keep (c.move shift more)) := by
  cases h : (span keep c : Verdict ε (Chunk β × Cursor β)) with
  | incomplete => exact .incomplete _
  | failed e => exact absurd h span_ne_failed
  | done read =>
    obtain ⟨run, next⟩ := read
    rw [span_move shift more h]
    exact .done ⟨rfl, rfl⟩

end Incremental
