import Mathlib.Data.List.Basic

namespace Chunks

variable {α : Type*} {limit : Nat}

/-- Blocks put one behind the other into chunks: a block that exceeds the limit behind what is
pending starts the next chunk. What is pending at the end is the second part of the result. -/
def pack (limit : Nat) : List α → List (List α) → List (List α) × List α
  | out, [] => ([], out)
  | out, block :: blocks =>
    if out.length + block.length ≤ limit then pack limit (out ++ block) blocks
    else
      let (chunks, rest) := pack limit block blocks
      (out :: chunks, rest)

@[simp] theorem pack_nil (out : List α) : pack limit out [] = ([], out) := rfl

theorem pack_fits {out block : List α} (h : out.length + block.length ≤ limit)
    (blocks : List (List α)) :
    pack limit out (block :: blocks) = pack limit (out ++ block) blocks :=
  if_pos h

theorem pack_full {out block : List α} (h : ¬ out.length + block.length ≤ limit)
    (blocks : List (List α)) :
    pack limit out (block :: blocks) =
      (out :: (pack limit block blocks).1, (pack limit block blocks).2) :=
  if_neg h

/-- Nothing is lost, repeated or moved. -/
theorem pack_flatten (out : List α) (blocks : List (List α)) :
    (pack limit out blocks).1.flatten ++ (pack limit out blocks).2 = out ++ blocks.flatten := by
  induction blocks generalizing out with
  | nil => simp
  | cons block blocks ih =>
    by_cases h : out.length + block.length ≤ limit
    · rw [pack_fits h, ih, List.flatten_cons, List.append_assoc]
    · rw [pack_full h, List.flatten_cons, List.append_assoc, ih, List.flatten_cons]

/-- No chunk exceeds the limit, if no block does. -/
theorem pack_length_le {out : List α} {blocks : List (List α)} (hout : out.length ≤ limit)
    (hblocks : ∀ block ∈ blocks, block.length ≤ limit) :
    (∀ chunk ∈ (pack limit out blocks).1, chunk.length ≤ limit) ∧
      (pack limit out blocks).2.length ≤ limit := by
  induction blocks generalizing out with
  | nil => exact ⟨by simp, hout⟩
  | cons block blocks ih =>
    have hrest := fun b hb => hblocks b (List.mem_cons_of_mem _ hb)
    by_cases h : out.length + block.length ≤ limit
    · rw [pack_fits h]
      exact ih (by rwa [List.length_append]) hrest
    · rw [pack_full h]
      obtain ⟨hchunks, hlast⟩ := ih (hblocks block List.mem_cons_self) hrest
      refine ⟨fun chunk hchunk => ?_, hlast⟩
      rcases List.mem_cons.mp hchunk with rfl | hchunk
      · exact hout
      · exact hchunks chunk hchunk

end Chunks
