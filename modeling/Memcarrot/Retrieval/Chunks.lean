import Memcarrot.Retrieval.Loop
import Memcarrot.Support.ListStore

open RawMemory

namespace Memcarrot.RetrievalCommand

variable {σ : Type} {fetch : List UInt8 → σ → Record × σ} {write : Record → List UInt8 → List UInt8}
  {record : List UInt8 → Record} {outBufferSize : Int} {key : List UInt8}
  {keys asked : List (List UInt8)} {out : List UInt8} {s : σ}

/-- Whichever of the keys were asked for before, each of them has the same record. -/
def Unchanging (fetch : List UInt8 → σ → Record × σ) (record : List UInt8 → Record)
    (keys : List (List UInt8)) (s : σ) : Prop :=
  ∀ (asked : List (List UInt8)) (key : List UInt8), (∀ k ∈ asked, k ∈ keys) → key ∈ keys →
    (fetch key (asked.foldl (fun s k => (fetch k s).2) s)).1 = record key

theorem Unchanging.fetch_eq (h : Unchanging fetch record keys s) (hkey : key ∈ keys) :
    (fetch key s).1 = record key :=
  h [] key (fun _ hk => absurd hk List.not_mem_nil) hkey

theorem Unchanging.after (h : Unchanging fetch record keys s) (hkey : key ∈ keys) :
    Unchanging fetch record keys (fetch key s).2 := by
  intro asked k hasked hk
  refine h (key :: asked) k (fun k' hk' => ?_) hk
  rcases List.mem_cons.mp hk' with rfl | hk'
  · exact hkey
  · exact hasked k' hk'

/-- A store that asking leaves as it is does not change. -/
theorem Unchanging.of_fixed (h : ∀ k, fetch k s = (record k, s)) :
    Unchanging fetch record keys s := by
  intro asked key _ _
  rw [List.foldl_fixed' (fun k => congrArg Prod.snd (h k)), h]

/-- The encodings of the records that are found, in the order of the keys. -/
def found (write : Record → List UInt8 → List UInt8) (record : List UInt8 → Record)
    (keys : List (List UInt8)) : List (List UInt8) :=
  (keys.filter fun key => (record key).value ≠ none).map fun key => write (record key) key

theorem found_absent (h : (record key).value = none) :
    found write record (key :: keys) = found write record keys := by
  simp only [found, ne_eq, h, not_true_eq_false, decide_false, Bool.false_eq_true,
    not_false_eq_true, List.filter_cons_of_neg]

theorem found_present (h : (record key).value ≠ none) :
    found write record (key :: keys) = write (record key) key :: found write record keys := by
  simp only [found, ne_eq, h, not_false_eq_true, decide_true, List.filter_cons_of_pos,
    List.map_cons]

theorem length_le_of_mem_found {limit : Int}
    (hfits : ∀ k ∈ keys, (record k).value ≠ none → ((write (record k) k).length : Int) ≤ limit)
    {block : List UInt8} (hblock : block ∈ found write record keys) :
    (block.length : Int) ≤ limit := by
  obtain ⟨key, hkey, rfl⟩ := List.mem_map.mp hblock
  obtain ⟨hmem, hpresent⟩ := List.mem_filter.mp hkey
  exact hfits key hmem (of_decide_eq_true hpresent)

variable (write out) in
/-- With records that do not change, the loop packs what is found into chunks. -/
theorem executeLoop_unchanging {limit : Nat} (hlimit : (limit : Int) = outBufferSize - 5)
    (h : Unchanging fetch record keys s) (hasked : ∀ k ∈ asked, k ∈ keys)
    (hfits : ∀ k ∈ asked, (record k).value ≠ none →
      ((write (record k) k).length : Int) ≤ outBufferSize - 5) :
    (executeLoop fetch write outBufferSize asked out s).chunks =
        (Chunks.pack limit out (found write record asked)).1 ∧
      (executeLoop fetch write outBufferSize asked out s).outcome =
        .response ((Chunks.pack limit out (found write record asked)).2 ++ END) := by
  induction asked generalizing out s with
  | nil => exact ⟨rfl, rfl⟩
  | cons key asked ih =>
    have hkey := hasked key List.mem_cons_self
    have hrest : ∀ k ∈ asked, k ∈ keys := fun k hk => hasked k (List.mem_cons_of_mem _ hk)
    have hfitsRest := fun k hk => hfits k (List.mem_cons_of_mem _ hk)
    have hrecord := h.fetch_eq hkey
    by_cases habsent : (record key).value = none
    · rw [executeLoop_absent (by rwa [hrecord]), found_absent habsent]
      exact ih _ (h.after hkey) hrest hfitsRest
    have hpresent : (fetch key s).1.value ≠ none := by rwa [hrecord]
    have hlength := hfits key List.mem_cons_self habsent
    rw [found_present habsent]
    by_cases hsize : ((write (record key) key).length : Int) ≤ outBufferSize - out.length - 5
    · rw [executeLoop_fits hpresent (by rwa [hrecord]), Chunks.pack_fits (by omega), hrecord]
      exact ih _ (h.after hkey) hrest hfitsRest
    · have hout : out ≠ [] := by
        rintro rfl
        rw [List.length_nil] at hsize
        omega
      -- the second round for the key finds the same record, and an empty buffer
      have hagain : (fetch key (fetch key s).2).1 = (fetch key s).1 :=
        ((h.after hkey).fetch_eq hkey).trans hrecord.symm
      have hfull : ((write (fetch key s).1 key).length : Int) > outBufferSize - out.length - 5 := by
        rw [hrecord]
        exact Int.not_le.mp hsize
      rw [executeLoop_again hpresent hfull hout hagain (by rwa [hrecord]),
        Chunks.pack_full (by omega), hrecord]
      obtain ⟨hchunks, houtcome⟩ := ih _ ((h.after hkey).after hkey) hrest hfitsRest
      exact ⟨congrArg (out :: ·) hchunks, houtcome⟩

/-- The execute of a retrieval command, as a function of the number of rounds and of the variables
of its loop, ends after at most two calls of the store for each position. Where the records of its
keys do not change and fit, it sends them all, and END. -/
def Delivers (fetch : List UInt8 → σ → Record × σ) (write : Record → List UInt8 → List UInt8)
    (execute : Nat → Loop σ → Option (Loop σ × Outcome)) (outBufferSize : Int)
    (keys : List (List UInt8)) (m : Memory) (s : σ) : Prop :=
  ∀ rounds > 2 * keys.length, ∃ last outcome,
    execute rounds { memory := m, store := s } = some (last, outcome) ∧
    (outcome = .bufferOverflow ∨ ∃ reply, outcome = .response reply) ∧
    (∀ i, last.calls.count i ≤ 2) ∧
    ∀ record, Unchanging fetch record keys s →
      (∀ key ∈ keys, (record key).value ≠ none →
        ((write (record key) key).length : Int) ≤ outBufferSize - 5) →
      ∃ reply, outcome = .response reply ∧
        last.chunks.flatten ++ reply = (found write record keys).flatten ++ END ∧
        (∀ chunk ∈ last.chunks, (chunk.length : Int) ≤ outBufferSize) ∧
        (reply.length : Int) ≤ outBufferSize

theorem Loop.run_delivers {write : RecordWrite} {encode : Record → List UInt8 → Bool → List UInt8}
    (hwrite : WritesRecords encode write) (hsize : 5 ≤ outBufferSize) (outBuffer : Int)
    (isCAS : Bool) (keys : List (List UInt8)) (m : Memory) (s : σ) :
    Delivers fetch (fun r key => encode r key isCAS)
      (fun rounds loop => loop.run fetch write isCAS outBuffer outBufferSize keys rounds)
      outBufferSize keys m s := by
  intro rounds hrounds
  have hholds : ({ memory := m, store := s } : Loop σ).Holds outBuffer [] := ⟨rfl, rfl⟩
  have hrounds : 2 * (keys.length - 0) + (if ([] : List UInt8) = [] then 0 else 1) < rounds := by
    simpa using hrounds
  obtain ⟨last, hrun, hends⟩ := Loop.run_eq fetch isCAS outBufferSize hwrite hholds hrounds
  rw [List.drop_zero] at hrun hends
  obtain ⟨calls, hcalls, hwithin⟩ := hends.calls
  refine ⟨last, _, hrun, executeLoop_outcome keys [] s, fun i => ?_, fun record hrecord hfits => ?_⟩
  · rw [hcalls, List.nil_append]
    exact (hwithin i).trans (callsLeft_le_two 0 [] i)
  -- the space in front of END
  obtain ⟨limit, hlimit⟩ := Int.eq_ofNat_of_zero_le (Int.sub_nonneg_of_le hsize)
  have hblocks : ∀ block ∈ found (fun r key => encode r key isCAS) record keys,
      block.length ≤ limit := by
    intro block hblock
    have hlength := length_le_of_mem_found hfits hblock
    omega
  obtain ⟨hchunks, houtcome⟩ := executeLoop_unchanging (fun r key => encode r key isCAS) []
    hlimit.symm hrecord (fun k hk => hk) hfits
  have hempty : ([] : List UInt8).length ≤ limit := Nat.zero_le limit
  obtain ⟨hshort, hlast⟩ := Chunks.pack_length_le hempty hblocks
  have hlists := hends.chunks
  rw [List.nil_append] at hlists
  rw [hlists, hchunks]
  refine ⟨_, houtcome, ?_, fun chunk hchunk => ?_, ?_⟩
  · rw [← List.append_assoc, Chunks.pack_flatten, List.nil_append]
  · have hlength := hshort chunk hchunk
    omega
  · rw [List.length_append, show END.length = 5 from rfl]
    omega

end Memcarrot.RetrievalCommand

namespace Memcarrot

open RetrievalCommand

/-- GET and GETS send the records of all keys whatever the size of the output buffer is. -/
theorem retrieval_delivers {σ : Type} (support : Memcached σ) {write : RecordWrite}
    (hwrite : WritesRecords support.write write) {outBufferSize : Int} (hsize : 5 ≤ outBufferSize)
    (outBuffer : Int) (op : Operation) (m : RawMemory.Memory) (s : σ) :
    Delivers support.get (fun r key => support.write r key op.cls.isCAS)
        (GET.execute support write outBuffer outBufferSize op) outBufferSize op.keys m s ∧
      Delivers support.gets (fun r key => support.write r key op.cls.isCAS)
        (GETS.execute support write outBuffer outBufferSize op) outBufferSize op.keys m s :=
  ⟨Loop.run_delivers hwrite hsize outBuffer _ _ m s,
    Loop.run_delivers hwrite hsize outBuffer _ _ m s⟩

/-- A response of two equal records and END, in a buffer for one record. -/
theorem retrieval_delivers_twice :
    let op : Operation := { cls := .GET, keys := [ascii "k", ascii "x", ascii "k"] }
    let s : ListStore := { items := [(ascii "k", { value := some (ascii "hi") })] }
    let m : Memory := Memory.ofBytes 0 []
    ∃ last reply,
      GET.execute ListStore.memcached (writeIfFits ListStore.encode) 4096 22 op 7
          { memory := m, store := s } = some (last, .response reply) ∧
        last.chunks.flatten ++ reply =
          ascii "VALUE k 0 2\r\nhi\r\nVALUE k 0 2\r\nhi\r\nEND\r\n" := by
  intro op s m
  obtain ⟨last, outcome, hrun, -, -, hdelivers⟩ := (retrieval_delivers ListStore.memcached
    (writeIfFits_writesRecords ListStore.encode) (show (5 : Int) ≤ 22 by decide) 4096 op m s).1 7
    (by decide)
  have hunchanging : Unchanging ListStore.memcached.get (fun key => s.find key) op.keys s :=
    .of_fixed fun _ => rfl
  obtain ⟨reply, rfl, hbytes, -, -⟩ := hdelivers (fun key => s.find key) hunchanging (by decide)
  exact ⟨last, reply, hrun, hbytes.trans (by decide)⟩

end Memcarrot
