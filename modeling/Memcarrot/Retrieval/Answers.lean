import Memcarrot.Chunks.Packing
import Memcarrot.Commands.Execute

namespace Memcarrot

variable {σ : Type}

/-- The call of the store that a retrieval command makes for a key. -/
def Operation.fetch (support : Memcached σ) (op : Operation) : List UInt8 → σ → Record × σ :=
  match op.cls with
  | .GETS => support.gets
  | .GAT => fun key => support.gat key op.exptime
  | .GATS => fun key => support.gats key op.exptime
  | _ => support.get

theorem Operation.execute_retrieval (services : Services σ) (outBufferSize : Int) {op : Operation}
    (hop : op.cls.isRetrieval = true) (s : σ) :
    op.execute services outBufferSize s =
      RetrievalCommand.executeLoop (op.fetch services.support)
        (fun r key => services.support.write r key op.cls.isCAS) outBufferSize op.keys [] s := by
  obtain ⟨cls, key, data, keys, flags, exptime, cas, value, noreply, delay⟩ := op
  cases cls <;> first | rfl | exact absurd hop Bool.false_ne_true

namespace RetrievalCommand

variable {fetch : List UInt8 → σ → Record × σ} {write : Record → List UInt8 → List UInt8}
  {outBufferSize : Int} {key : List UInt8} {keys : List (List UInt8)} {out : List UInt8} {s : σ}

section Rules

variable {outSize : Nat}

theorem round_absent (h : (fetch key s).1.value = none) :
    round fetch write outBufferSize key outSize s = (.absent, (fetch key s).2) := by
  rw [round]
  simp only [h, if_true]

theorem round_written (h : (fetch key s).1.value ≠ none)
    (hsize : ((write (fetch key s).1 key).length : Int) ≤ outBufferSize - outSize - 5) :
    round fetch write outBufferSize key outSize s =
      (.written (write (fetch key s).1 key), (fetch key s).2) := by
  rw [round]
  simp only [h, if_false, gt_iff_lt, Int.not_lt.mpr hsize]

theorem round_full (h : (fetch key s).1.value ≠ none)
    (hsize : ((write (fetch key s).1 key).length : Int) > outBufferSize - outSize - 5) :
    round fetch write outBufferSize key outSize s = (.full, (fetch key s).2) := by
  rw [round]
  simp only [h, if_false, hsize, if_true]

@[simp] theorem executeLoop_nil :
    executeLoop fetch write outBufferSize [] out s = ⟨s, [], .response (out ++ END)⟩ :=
  rfl

theorem executeLoop_absent (h : (fetch key s).1.value = none) :
    executeLoop fetch write outBufferSize (key :: keys) out s =
      executeLoop fetch write outBufferSize keys out (fetch key s).2 := by
  rw [executeLoop, round_absent h]

theorem executeLoop_fits (h : (fetch key s).1.value ≠ none)
    (hsize : ((write (fetch key s).1 key).length : Int) ≤ outBufferSize - out.length - 5) :
    executeLoop fetch write outBufferSize (key :: keys) out s =
      executeLoop fetch write outBufferSize keys (out ++ write (fetch key s).1 key)
        (fetch key s).2 := by
  rw [executeLoop, round_written h hsize]

theorem executeLoop_tooLarge (h : (fetch key s).1.value ≠ none)
    (hsize : ((write (fetch key s).1 key).length : Int) > outBufferSize - 5) :
    executeLoop fetch write outBufferSize (key :: keys) [] s =
      ⟨(fetch key s).2, [], .bufferOverflow⟩ := by
  have hsize' : ((write (fetch key s).1 key).length : Int) >
      outBufferSize - (([] : List UInt8).length : Nat) - 5 := by
    rw [List.length_nil]
    omega
  rw [executeLoop, round_full h hsize']
  rfl

/-- What is in the buffer is passed on, and the key is asked for again. -/
theorem executeLoop_full (h : (fetch key s).1.value ≠ none)
    (hsize : ((write (fetch key s).1 key).length : Int) > outBufferSize - out.length - 5)
    (hout : out ≠ []) :
    executeLoop fetch write outBufferSize (key :: keys) out s =
      let rest := executeLoop fetch write outBufferSize (key :: keys) [] (fetch key s).2
      { rest with chunks := out :: rest.chunks } := by
  have hpos := List.length_pos_of_ne_nil hout
  rw [executeLoop, round_full h hsize]
  simp only [gt_iff_lt, hpos, if_true]
  -- the second round for the key, with an empty buffer
  by_cases hagain : (fetch key (fetch key s).2).1.value = none
  · rw [executeLoop_absent hagain, round_absent hagain]
  · by_cases hfits : ((write (fetch key (fetch key s).2).1 key).length : Int) ≤
        outBufferSize - (0 : Nat) - 5
    · rw [executeLoop_fits hagain hfits, round_written hagain hfits, List.nil_append]
    · rw [executeLoop_tooLarge hagain (by omega), round_full hagain (Int.not_le.mp hfits)]

/-- The first record fits into an empty buffer. -/
theorem executeLoop_first (h : (fetch key s).1.value ≠ none)
    (hsize : ((write (fetch key s).1 key).length : Int) ≤ outBufferSize - 5) :
    executeLoop fetch write outBufferSize (key :: keys) [] s =
      executeLoop fetch write outBufferSize keys (write (fetch key s).1 key) (fetch key s).2 := by
  have hsize' : ((write (fetch key s).1 key).length : Int) ≤
      outBufferSize - (([] : List UInt8).length : Nat) - 5 := by
    rw [List.length_nil]
    omega
  rw [executeLoop_fits h hsize', List.nil_append]

/-- The second call for a key finds the same record, which is the first one in the next chunk. -/
theorem executeLoop_again (h : (fetch key s).1.value ≠ none)
    (hsize : ((write (fetch key s).1 key).length : Int) > outBufferSize - out.length - 5)
    (hout : out ≠ []) (hagain : (fetch key (fetch key s).2).1 = (fetch key s).1)
    (hfits : ((write (fetch key s).1 key).length : Int) ≤ outBufferSize - 5) :
    executeLoop fetch write outBufferSize (key :: keys) out s =
      let rest := executeLoop fetch write outBufferSize keys (write (fetch key s).1 key)
        (fetch key (fetch key s).2).2
      { rest with chunks := out :: rest.chunks } := by
  rw [executeLoop_full h hsize hout, executeLoop_first (by rwa [hagain]) (by rwa [hagain]), hagain]

/-- The loop ends with a response or with the exception. -/
theorem executeLoop_outcome (keys : List (List UInt8)) (out : List UInt8) (s : σ) :
    (executeLoop fetch write outBufferSize keys out s).outcome = .bufferOverflow ∨
      ∃ reply, (executeLoop fetch write outBufferSize keys out s).outcome = .response reply := by
  induction keys generalizing out s with
  | nil => exact .inr ⟨_, rfl⟩
  | cons key keys ih =>
    rw [executeLoop]
    split
    · exact ih _ _
    · exact ih _ _
    · split
      · split
        · exact ih _ _
        · exact ih _ _
        · exact .inl rfl
      · exact .inl rfl

end Rules

/-- The encodings of the records that are found, and the store after it, when every key is asked
for once. -/
def answers (fetch : List UInt8 → σ → Record × σ) (write : Record → List UInt8 → List UInt8) :
    List (List UInt8) → σ → List (List UInt8) × σ
  | [], s => ([], s)
  | key :: keys, s =>
    let (r, s) := fetch key s
    let (blocks, s) := answers fetch write keys s
    (if r.value = none then blocks else write r key :: blocks, s)

theorem answers_absent (h : (fetch key s).1.value = none) :
    answers fetch write (key :: keys) s = answers fetch write keys (fetch key s).2 := by
  simp only [answers, h, if_true]

theorem answers_found (h : (fetch key s).1.value ≠ none) :
    answers fetch write (key :: keys) s =
      (write (fetch key s).1 key :: (answers fetch write keys (fetch key s).2).1,
        (answers fetch write keys (fetch key s).2).2) := by
  simp only [answers, h, if_false]

/-- As long as the answers fit, nothing is passed on. -/
theorem executeLoop_append {front back : List (List UInt8)}
    (hfits : (answers fetch write front s).1 ≠ [] →
      ((out ++ (answers fetch write front s).1.flatten).length : Int) ≤ outBufferSize - 5) :
    executeLoop fetch write outBufferSize (front ++ back) out s =
      executeLoop fetch write outBufferSize back (out ++ (answers fetch write front s).1.flatten)
        (answers fetch write front s).2 := by
  induction front generalizing out s with
  | nil => simp [answers]
  | cons key front ih =>
    by_cases h : (fetch key s).1.value = none
    · rw [answers_absent h] at hfits ⊢
      rw [List.cons_append, executeLoop_absent h]
      exact ih hfits
    · rw [answers_found h] at hfits ⊢
      simp only [ne_eq, reduceCtorEq, not_false_eq_true, forall_const, List.flatten_cons,
        ← List.append_assoc] at hfits ⊢
      have hsize := hfits
      simp only [List.length_append, Int.natCast_add] at hsize
      rw [List.cons_append, executeLoop_fits h (by omega)]
      exact ih fun _ => hfits

/-- What the store answers for the keys fits into the output buffer together with END. -/
def AnswersFit (fetch : List UInt8 → σ → Record × σ) (write : Record → List UInt8 → List UInt8)
    (outBufferSize : Int) (keys : List (List UInt8)) (s : σ) : Prop :=
  (answers fetch write keys s).1 ≠ [] →
    ((answers fetch write keys s).1.flatten.length : Int) ≤ outBufferSize - 5

theorem executeLoop_of_fit {front back : List (List UInt8)}
    (hfit : AnswersFit fetch write outBufferSize front s) :
    executeLoop fetch write outBufferSize (front ++ back) [] s =
      executeLoop fetch write outBufferSize back (answers fetch write front s).1.flatten
        (answers fetch write front s).2 := by
  rw [executeLoop_append (by rwa [List.nil_append]), List.nil_append]

theorem executeLoop_of_fits (hfit : AnswersFit fetch write outBufferSize keys s) :
    executeLoop fetch write outBufferSize keys [] s =
      ⟨(answers fetch write keys s).2, [],
        .response ((answers fetch write keys s).1.flatten ++ END)⟩ := by
  have hrun : executeLoop fetch write outBufferSize (keys ++ []) [] s = _ :=
    executeLoop_of_fit hfit
  rwa [List.append_nil, executeLoop_nil] at hrun

end RetrievalCommand

end Memcarrot
