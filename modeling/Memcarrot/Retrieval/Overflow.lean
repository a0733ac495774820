import Mathlib.Data.List.Induction
import Memcarrot.Retrieval.Chunks

namespace Memcarrot

namespace RetrievalCommand

variable {σ : Type} {fetch : List UInt8 → σ → Record × σ} {write : Record → List UInt8 → List UInt8}
  {outBufferSize : Int} {key : List UInt8} {keys asked front back : List (List UInt8)}
  {record : List UInt8 → Record} {out : List UInt8} {s : σ}

/-- The store has a record for the key that does not fit behind `outSize` bytes. -/
def Exceeds (fetch : List UInt8 → σ → Record × σ) (write : Record → List UInt8 → List UInt8)
    (outBufferSize : Int) (key : List UInt8) (outSize : Nat) (s : σ) : Prop :=
  (fetch key s).1.value ≠ none ∧
    ((write (fetch key s).1 key).length : Int) > outBufferSize - outSize - 5

theorem answers_append (front back : List (List UInt8)) (s : σ) :
    answers fetch write (front ++ back) s =
      ((answers fetch write front s).1 ++
          (answers fetch write back (answers fetch write front s).2).1,
        (answers fetch write back (answers fetch write front s).2).2) := by
  induction front generalizing s with
  | nil => rfl
  | cons key front ih =>
    rw [List.cons_append]
    by_cases h : (fetch key s).1.value = none
    · rw [answers_absent h, answers_absent h, ih]
    · rw [answers_found h, answers_found h, ih, List.cons_append]

/-- The answers for the keys fit, or there is a first key whose record does not fit behind the
answers for the keys in front of it. -/
theorem answersFit_or_exceeds (fetch : List UInt8 → σ → Record × σ)
    (write : Record → List UInt8 → List UInt8) (outBufferSize : Int) (keys : List (List UInt8))
    (s : σ) :
    AnswersFit fetch write outBufferSize keys s ∨
      ∃ front key back, keys = front ++ key :: back ∧
        AnswersFit fetch write outBufferSize front s ∧
        Exceeds fetch write outBufferSize key (answers fetch write front s).1.flatten.length
          (answers fetch write front s).2 := by
  induction keys using List.reverseRecOn with
  | nil => exact .inl fun h => absurd rfl h
  | append_singleton keys key ih =>
    rcases ih with hfit | ⟨front, first, back, rfl, hfit, hexceeds⟩
    · by_cases habsent : (fetch key (answers fetch write keys s).2).1.value = none
      · left
        rwa [AnswersFit, answers_append, answers_absent habsent, answers, List.append_nil]
      by_cases hsize : ((write (fetch key (answers fetch write keys s).2).1 key).length : Int) ≤
          outBufferSize - (answers fetch write keys s).1.flatten.length - 5
      · left
        intro _
        rw [answers_append, answers_found habsent, answers, List.flatten_append,
          List.length_append, List.flatten_singleton]
        omega
      · exact .inr ⟨keys, key, [], rfl, hfit, habsent, Int.not_le.mp hsize⟩
    · exact .inr ⟨front, first, back ++ [key], by simp, hfit, hexceeds⟩

theorem executeLoop_of_exceeds_empty (hfit : AnswersFit fetch write outBufferSize front s)
    (hempty : (answers fetch write front s).1.flatten = [])
    (hexceeds : Exceeds fetch write outBufferSize key 0 (answers fetch write front s).2) :
    executeLoop fetch write outBufferSize (front ++ key :: back) [] s =
      ⟨(fetch key (answers fetch write front s).2).2, [], .bufferOverflow⟩ := by
  obtain ⟨hpresent, hsize⟩ := hexceeds
  rw [executeLoop_of_fit hfit, hempty]
  exact executeLoop_tooLarge hpresent (by omega)

theorem executeLoop_of_exceeds (hfit : AnswersFit fetch write outBufferSize front s)
    (hne : (answers fetch write front s).1.flatten ≠ [])
    (hexceeds : Exceeds fetch write outBufferSize key (answers fetch write front s).1.flatten.length
      (answers fetch write front s).2) :
    executeLoop fetch write outBufferSize (front ++ key :: back) [] s =
      let rest := executeLoop fetch write outBufferSize (key :: back) []
        (fetch key (answers fetch write front s).2).2
      { rest with chunks := (answers fetch write front s).1.flatten :: rest.chunks } := by
  rw [executeLoop_of_fit hfit]
  exact executeLoop_full hexceeds.1 hexceeds.2 hne

/-- Asking for the keys with an empty buffer comes to a record that exceeds even an empty buffer:
before there is anything in the buffer, or once the answers in front of a record that does not fit
behind them have been passed on. -/
inductive MeetsTooLarge (fetch : List UInt8 → σ → Record × σ)
    (write : Record → List UInt8 → List UInt8) (outBufferSize : Int) :
    List (List UInt8) → σ → Prop
  | first {front back : List (List UInt8)} {key : List UInt8} {s : σ}
      (hfit : AnswersFit fetch write outBufferSize front s)
      (hempty : (answers fetch write front s).1.flatten = [])
      (hexceeds : Exceeds fetch write outBufferSize key 0 (answers fetch write front s).2) :
      MeetsTooLarge fetch write outBufferSize (front ++ key :: back) s
  | later {front back : List (List UInt8)} {key : List UInt8} {s : σ}
      (hfit : AnswersFit fetch write outBufferSize front s)
      (hne : (answers fetch write front s).1.flatten ≠ [])
      (hexceeds : Exceeds fetch write outBufferSize key
        (answers fetch write front s).1.flatten.length (answers fetch write front s).2)
      (hmeets : MeetsTooLarge fetch write outBufferSize (key :: back)
        (fetch key (answers fetch write front s).2).2) :
      MeetsTooLarge fetch write outBufferSize (front ++ key :: back) s

theorem MeetsTooLarge.outcome (h : MeetsTooLarge fetch write outBufferSize keys s) :
    (executeLoop fetch write outBufferSize keys [] s).outcome = .bufferOverflow := by
  induction h with
  | first hfit hempty hexceeds => rw [executeLoop_of_exceeds_empty hfit hempty hexceeds]
  | later hfit hne hexceeds _ ih =>
    rw [executeLoop_of_exceeds hfit hne hexceeds]
    exact ih

theorem meetsTooLarge_iff (keys : List (List UInt8)) (s : σ) :
    MeetsTooLarge fetch write outBufferSize keys s ↔
      (executeLoop fetch write outBufferSize keys [] s).outcome = .bufferOverflow := by
  refine ⟨MeetsTooLarge.outcome, fun h => ?_⟩
  induction hlength : keys.length using Nat.strong_induction_on generalizing keys s with
  | _ n ih =>
    rcases answersFit_or_exceeds fetch write outBufferSize keys s with
      hfit | ⟨front, key, back, rfl, hfit, hexceeds⟩
    · rw [executeLoop_of_fits hfit] at h
      cases h
    by_cases hempty : (answers fetch write front s).1.flatten = []
    · rw [hempty] at hexceeds
      exact .first hfit hempty hexceeds
    · rw [executeLoop_of_exceeds hfit hempty hexceeds] at h
      -- the keys in front of the record are done
      have hfront : front ≠ [] := by
        rintro rfl
        exact hempty rfl
      have hshorter : (key :: back).length < n := by
        rw [← hlength, List.length_append]
        exact Nat.lt_add_of_pos_left (List.length_pos_of_ne_nil hfront)
      exact .later hfit hempty hexceeds (ih _ hshorter _ _ h rfl)

/-- Answers have been passed on, and what follows comes to a record that exceeds the buffer. -/
def Splices (fetch : List UInt8 → σ → Record × σ) (write : Record → List UInt8 → List UInt8)
    (outBufferSize : Int) (keys : List (List UInt8)) (s : σ) : Prop :=
  ∃ front key back, keys = front ++ key :: back ∧
    AnswersFit fetch write outBufferSize front s ∧
    (answers fetch write front s).1.flatten ≠ [] ∧
    Exceeds fetch write outBufferSize key (answers fetch write front s).1.flatten.length
      (answers fetch write front s).2 ∧
    MeetsTooLarge fetch write outBufferSize (key :: back)
      (fetch key (answers fetch write front s).2).2

theorem sendsNothing_iff (keys : List (List UInt8)) (s : σ) :
    ((executeLoop fetch write outBufferSize keys [] s).outcome = .bufferOverflow →
        (executeLoop fetch write outBufferSize keys [] s).chunks = []) ↔
      ¬ Splices fetch write outBufferSize keys s := by
  constructor
  · rintro h ⟨front, key, back, rfl, hfit, hne, hexceeds, hmeets⟩
    rw [executeLoop_of_exceeds hfit hne hexceeds] at h
    exact List.cons_ne_nil _ _ (h hmeets.outcome)
  · intro hsplices hoverflow
    rcases answersFit_or_exceeds fetch write outBufferSize keys s with
      hfit | ⟨front, key, back, rfl, hfit, hexceeds⟩
    · rw [executeLoop_of_fits hfit]
    by_cases hempty : (answers fetch write front s).1.flatten = []
    · rw [hempty] at hexceeds
      rw [executeLoop_of_exceeds_empty hfit hempty hexceeds]
    · rw [executeLoop_of_exceeds hfit hempty hexceeds] at hoverflow
      have hmeets := (meetsTooLarge_iff (key :: back) _).mpr hoverflow
      exact absurd ⟨front, key, back, rfl, hfit, hempty, hexceeds, hmeets⟩ hsplices

theorem splices_iff (keys : List (List UInt8)) (s : σ) :
    Splices fetch write outBufferSize keys s ↔
      (executeLoop fetch write outBufferSize keys [] s).outcome = .bufferOverflow ∧
        (executeLoop fetch write outBufferSize keys [] s).chunks ≠ [] := by
  rw [← not_iff_not, ← sendsNothing_iff, not_and, not_not]

variable (write) in
/-- With records that do not change and something in the buffer, every record that exceeds the
buffer leads to the exception, and what is in the buffer is passed on before. -/
theorem executeLoop_pending (h : Unchanging fetch record keys s) (hasked : ∀ k ∈ asked, k ∈ keys)
    (hne : out ≠ []) (hout : (out.length : Int) ≤ outBufferSize - 5) :
    ((executeLoop fetch write outBufferSize asked out s).outcome = .bufferOverflow ↔
        ∃ block ∈ found write record asked, (block.length : Int) > outBufferSize - 5) ∧
      ((executeLoop fetch write outBufferSize asked out s).outcome = .bufferOverflow →
        (executeLoop fetch write outBufferSize asked out s).chunks ≠ []) := by
  induction asked generalizing out s with
  | nil => simp [found]
  | cons key asked ih =>
    have hkey := hasked key List.mem_cons_self
    have hrest : ∀ k ∈ asked, k ∈ keys := fun k hk => hasked k (List.mem_cons_of_mem _ hk)
    have hrecord := h.fetch_eq hkey
    by_cases habsent : (record key).value = none
    · rw [executeLoop_absent (by rwa [hrecord]), found_absent habsent]
      exact ih (h.after hkey) hrest hne hout
    have hpresent : (fetch key s).1.value ≠ none := by rwa [hrecord]
    rw [found_present habsent]
    by_cases hsize : ((write (record key) key).length : Int) ≤ outBufferSize - out.length - 5
    · have hshort : ¬ ((write (record key) key).length : Int) > outBufferSize - 5 := by omega
      have hlength : ((out ++ write (record key) key).length : Int) ≤ outBufferSize - 5 := by
        rw [List.length_append]
        omega
      rw [executeLoop_fits hpresent (by rwa [hrecord]), hrecord]
      simp only [List.mem_cons, exists_eq_or_imp, hshort, false_or]
      exact ih (h.after hkey) hrest (List.append_ne_nil_of_left_ne_nil hne _) hlength
    have hagain : (fetch key (fetch key s).2).1 = (fetch key s).1 :=
      ((h.after hkey).fetch_eq hkey).trans hrecord.symm
    have hfull : ((write (fetch key s).1 key).length : Int) > outBufferSize - out.length - 5 := by
      rw [hrecord]
      exact Int.not_le.mp hsize
    by_cases hlarge : ((write (record key) key).length : Int) > outBufferSize - 5
    · rw [executeLoop_full hpresent hfull hne,
        executeLoop_tooLarge (by rwa [hagain]) (by rwa [hagain, hrecord])]
      refine ⟨?_, fun _ => List.cons_ne_nil _ _⟩
      simp [hlarge]
    · have hblock : write (record key) key ≠ [] := by
        intro hnil
        rw [hnil, List.length_nil] at hsize
        omega
      rw [executeLoop_again hpresent hfull hne hagain (by rw [hrecord]; exact Int.not_lt.mp hlarge),
        hrecord]
      refine ⟨?_, fun _ => List.cons_ne_nil _ _⟩
      simp only [List.mem_cons, exists_eq_or_imp, hlarge, false_or]
      exact (ih ((h.after hkey).after hkey) hrest hblock (Int.not_lt.mp hlarge)).1

/-- With records that do not change, answers are passed on before the exception where the first of
the answers fits into the buffer, and a later one exceeds it. -/
theorem splices_unchanging (h : Unchanging fetch record keys s) (hasked : ∀ k ∈ asked, k ∈ keys) :
    Splices fetch write outBufferSize asked s ↔
      ∃ block blocks, (found write record asked).filter (· ≠ []) = block :: blocks ∧
        (block.length : Int) ≤ outBufferSize - 5 ∧
        ∃ other ∈ blocks, (other.length : Int) > outBufferSize - 5 := by
  rw [splices_iff]
  induction asked generalizing s with
  | nil => simp [found]
  | cons key asked ih =>
    have hkey := hasked key List.mem_cons_self
    have hrest : ∀ k ∈ asked, k ∈ keys := fun k hk => hasked k (List.mem_cons_of_mem _ hk)
    have hrecord := h.fetch_eq hkey
    by_cases habsent : (record key).value = none
    · rw [executeLoop_absent (by rwa [hrecord]), found_absent habsent]
      exact ih (h.after hkey) hrest
    have hpresent : (fetch key s).1.value ≠ none := by rwa [hrecord]
    have hfilter : write (record key) key ≠ [] →
        (write (record key) key :: found write record asked).filter (· ≠ []) =
          write (record key) key :: (found write record asked).filter (· ≠ []) :=
      fun hne => List.filter_cons_of_pos (by simpa using hne)
    rw [found_present habsent]
    by_cases hlarge : ((write (record key) key).length : Int) > outBufferSize - 5
    · -- the exception comes before anything is passed on
      have hfirst : ∀ block blocks, (write (record key) key :: found write record asked).filter
          (· ≠ []) = block :: blocks → ¬ (block.length : Int) ≤ outBufferSize - 5 := by
        intro block blocks hblocks hblock
        by_cases hnil : write (record key) key = []
        · rw [hnil, List.length_nil] at hlarge
          omega
        · rw [hfilter hnil] at hblocks
          cases hblocks
          omega
      rw [executeLoop_tooLarge hpresent (by rwa [hrecord])]
      constructor
      · rintro ⟨-, hchunks⟩
        exact absurd rfl hchunks
      · rintro ⟨block, blocks, hblocks, hblock, -⟩
        exact absurd hblock (hfirst block blocks hblocks)
    have hfits : ((write (fetch key s).1 key).length : Int) ≤ outBufferSize - 5 := by
      rw [hrecord]
      exact Int.not_lt.mp hlarge
    rw [executeLoop_first hpresent hfits, hrecord]
    by_cases hnil : write (record key) key = []
    · rw [hnil, List.filter_cons_of_neg (by simp)]
      exact ih (h.after hkey) hrest
    · obtain ⟨hoverflow, hchunks⟩ := executeLoop_pending write (h.after hkey) hrest hnil
        (Int.not_lt.mp hlarge)
      rw [hfilter hnil]
      constructor
      · rintro ⟨houtcome, -⟩
        obtain ⟨other, hmem, hother⟩ := hoverflow.mp houtcome
        have hne : other ≠ [] := by
          rintro rfl
          rw [List.length_nil] at hother
          omega
        exact ⟨_, _, rfl, Int.not_lt.mp hlarge, other,
          List.mem_filter.mpr ⟨hmem, by simpa using hne⟩, hother⟩
      · rintro ⟨block, blocks, hblocks, -, other, hmem, hother⟩
        cases hblocks
        have houtcome := hoverflow.mpr ⟨other, (List.mem_filter.mp hmem).1, hother⟩
        exact ⟨houtcome, hchunks houtcome⟩

end RetrievalCommand

/-- A retrieval command that throws has passed nothing on, unless answers that filled the buffer
are followed by a record that exceeds it. -/
theorem overflow_sends_nothing_iff {σ : Type} (services : Services σ) (outBufferSize : Int)
    {op : Operation} (hop : op.cls.isRetrieval = true) (s : σ) :
    (((op.execute services outBufferSize s).outcome = .bufferOverflow →
        (op.execute services outBufferSize s).chunks = []) ↔
      ¬ RetrievalCommand.Splices (op.fetch services.support)
        (fun r key => services.support.write r key op.cls.isCAS) outBufferSize op.keys s) ∧
    ∀ record, RetrievalCommand.Unchanging (op.fetch services.support) record op.keys s →
      (RetrievalCommand.Splices (op.fetch services.support)
          (fun r key => services.support.write r key op.cls.isCAS) outBufferSize op.keys s ↔
        ∃ block blocks,
          (RetrievalCommand.found (fun r key => services.support.write r key op.cls.isCAS) record
            op.keys).filter (· ≠ []) = block :: blocks ∧
          (block.length : Int) ≤ outBufferSize - 5 ∧
          ∃ other ∈ blocks, (other.length : Int) > outBufferSize - 5) := by
  rw [Operation.execute_retrieval services outBufferSize hop s]
  exact ⟨RetrievalCommand.sendsNothing_iff op.keys s,
    fun record hrecord => RetrievalCommand.splices_unchanging hrecord fun k hk => hk⟩

/-- A record that exceeds a buffer of 30 bytes, alone. -/
theorem overflow_sends_nothing_alone :
    let op : Operation := { cls := .GET, keys := [ascii "b"] }
    let s : ListStore :=
      { items := [(ascii "b", { value := some (ascii "twenty bytes of data") })] }
    (op.execute listServices 30 s).outcome = .bufferOverflow ∧
      (op.execute listServices 30 s).chunks = [] := by
  intro op s
  have houtcome : (op.execute listServices 30 s).outcome = .bufferOverflow := by decide
  have hunchanging : RetrievalCommand.Unchanging (op.fetch listServices.support)
      (fun key => s.find key) op.keys s := .of_fixed fun _ => rfl
  obtain ⟨hiff, hsplices⟩ :=
    overflow_sends_nothing_iff listServices 30 (show op.cls.isRetrieval = true by decide) s
  refine ⟨houtcome, hiff.mpr (fun h => ?_) houtcome⟩
  obtain ⟨block, blocks, hblocks, -, other, hother, -⟩ := (hsplices _ hunchanging).mp h
  have hone : blocks = [] := (List.cons_eq_cons.mp hblocks).2.symm
  rw [hone] at hother
  cases hother

/-- The record of one key is passed on before the record of the next one exceeds the buffer. -/
theorem not_overflow_sends_nothing_get :
    ¬ ∀ (services : Services ListStore) (outBufferSize : Int) (op : Operation) (s : ListStore),
      op.cls.isRetrieval = true → (op.execute services outBufferSize s).outcome = .bufferOverflow →
        (op.execute services outBufferSize s).chunks = [] := by
  intro h
  have hnothing := h listServices 30 { cls := .GET, keys := [ascii "a", ascii "b"] }
    { items := [(ascii "a", { value := some (ascii "x") }),
        (ascii "b", { value := some (ascii "twenty bytes of data") })] } (by decide) (by decide)
  exact absurd hnothing (by decide)

end Memcarrot
