import Memcarrot.Parsing.Failures
import Memcarrot.Refinement.OutputBuffer
import Memcarrot.Retrieval.Overflow
import Memcarrot.Server.Finishing
import Memcarrot.Server.InsideBuffer

open Incremental RawMemory

namespace Memcarrot

open RetrievalCommand (RecordWrite)

/-- The loop over the keys comes to a record that exceeds even an empty output buffer. -/
def Operation.MeetsTooLarge {σ : Type} (services : Services σ) (outSize : Int) (op : Operation)
    (s : σ) : Prop :=
  op.cls.isRetrieval = true ∧
    RetrievalCommand.MeetsTooLarge (op.fetch services.support)
      (fun r key => services.support.write r key op.cls.isCAS) outSize op.keys s

section Execute

variable {σ : Type} {services : Services σ} {write : RecordWrite} {writeLong : LongWrite}
  {outSize : Int} {op : Operation} {s : σ} {bytes : List UInt8}

/-- A response with records fits into the output buffer. -/
theorem RetrievalCommand.length_executeLoop {fetch : List UInt8 → σ → Record × σ}
    {write : Record → List UInt8 → List UInt8} {keys : List (List UInt8)} {out : List UInt8}
    (hout : (out.length : Int) ≤ outSize - 5)
    (h : (executeLoop fetch write outSize keys out s).outcome = .response bytes) :
    (bytes.length : Int) ≤ outSize := by
  have hend : END.length = 5 := rfl
  induction keys generalizing out s with
  | nil =>
    obtain rfl := Outcome.response.inj h
    rw [List.length_append]
    omega
  | cons key keys ih =>
    -- a round that does not pass on what is in the buffer
    have hround {out : List UInt8} {s : σ} (hout : (out.length : Int) ≤ outSize - 5)
        (hroom : (fetch key s).1.value = none ∨
          ((write (fetch key s).1 key).length : Int) ≤ outSize - out.length - 5)
        (h : (executeLoop fetch write outSize (key :: keys) out s).outcome = .response bytes) :
        (bytes.length : Int) ≤ outSize := by
      by_cases hvalue : (fetch key s).1.value = none
      · rw [executeLoop_absent hvalue] at h
        exact ih hout h
      · have hfits := hroom.resolve_left hvalue
        rw [executeLoop_fits hvalue hfits] at h
        refine ih ?_ h
        rw [List.length_append]
        omega
    by_cases hvalue : (fetch key s).1.value = none
    · exact hround hout (.inl hvalue) h
    rcases Int.lt_or_le (outSize - out.length - 5) (write (fetch key s).1 key).length with
      hfull | hfits
    · by_cases hnil : out = []
      · subst hnil
        rw [executeLoop_tooLarge hvalue (by simpa using hfull)] at h
        cases h
      · rw [executeLoop_full hvalue hfull hnil] at h
        have hempty : (([] : List UInt8).length : Int) ≤ outSize - 5 := by
          rw [List.length_nil]
          omega
        by_cases hagain : (fetch key (fetch key s).2).1.value = none
        · exact hround hempty (.inl hagain) h
        rcases Int.lt_or_le (outSize - 5) (write (fetch key (fetch key s).2).1 key).length with
          hlarge | hsmall
        · simp only [executeLoop_tooLarge hagain hlarge] at h
          cases h
        · refine hround hempty (.inr ?_) h
          rw [List.length_nil]
          omega
    · exact hround hout (.inr hfits) h

theorem Operation.overflow_iff (services : Services σ) (outSize : Int) (op : Operation) (s : σ) :
    (op.execute services outSize s).outcome = .bufferOverflow ↔
      op.MeetsTooLarge services outSize s := by
  by_cases hop : op.cls.isRetrieval = true
  · rw [Operation.execute_retrieval services outSize hop, Operation.MeetsTooLarge,
      RetrievalCommand.meetsTooLarge_iff]
    exact (and_iff_right hop).symm
  · refine iff_of_false (fun h => ?_) fun h => hop h.1
    unfold Operation.execute at h
    cases hcls : op.cls <;> simp only [hcls] at h hop
    case INCR | DECR =>
      unfold INCR.execute at h
      simp only at h
      split at h <;> cases h
    case SHUTDOWN =>
      unfold SHUTDOWN.execute at h
      split at h <;> cases h
    case GET | GETS | GAT | GATS => exact hop rfl
    all_goals cases h

/-- The replies other than the lines of stats and the version fit into the output buffer. -/
theorem Operation.reply_fits_iff (h : RespectsBuffer services write writeLong)
    (hsize : 256 ≤ outSize) (op : Operation) (s : σ) :
    (∀ bytes, (op.execute services outSize s).outcome = .response bytes →
        (bytes.length : Int) ≤ outSize) ↔
      ReplyFits services outSize op.cls s := by
  have hother (hstats : op.cls ≠ .STATS) (hversion : op.cls ≠ .VERSION)
      (hfits : ∀ {bytes}, (op.execute services outSize s).outcome = .response bytes →
        (bytes.length : Int) ≤ outSize) :
      (∀ bytes, (op.execute services outSize s).outcome = .response bytes →
          (bytes.length : Int) ≤ outSize) ↔ ReplyFits services outSize op.cls s :=
    iff_of_true (fun _ => hfits)
      ⟨fun hcls => absurd hcls hstats, fun hcls => absurd hcls hversion⟩
  have hbrief (hop : op.cls.isBrief = true) {bytes : List UInt8}
      (houtcome : (op.execute services outSize s).outcome = .response bytes) :
      (bytes.length : Int) ≤ outSize := by
    have hlength := length_execute services hop h.shutdown_lt houtcome
    omega
  have hretrieval (hop : op.cls.isRetrieval = true) {bytes : List UInt8}
      (houtcome : (op.execute services outSize s).outcome = .response bytes) :
      (bytes.length : Int) ≤ outSize := by
    rw [Operation.execute_retrieval services outSize hop] at houtcome
    exact RetrievalCommand.length_executeLoop (by rw [List.length_nil]; omega) houtcome
  unfold Operation.execute at hother hbrief hretrieval ⊢
  cases hcls : op.cls <;> simp only [hcls] at hother hbrief hretrieval ⊢
  case GET | GETS | GAT | GATS => exact hother (by decide) (by decide) (hretrieval rfl)
  case INCR =>
    refine hother (by decide) (by decide) fun houtcome => ?_
    have hlength := INCR.length_execute h.long h.incr houtcome
    omega
  case DECR =>
    refine hother (by decide) (by decide) fun houtcome => ?_
    have hlength := INCR.length_execute h.long h.decr houtcome
    omega
  case VERSION =>
    have hlength : ((ascii "VERSION " ++ services.version.getD (ascii "unknown") ++ CRLF).length :
        Int) = 10 + (services.version.getD (ascii "unknown")).length := by
      rw [List.length_append, List.length_append, show (ascii "VERSION ").length = 8 from rfl,
        show CRLF.length = 2 from rfl]
      omega
    simp only [VERSION.execute, reply, Bool.false_eq_true, if_false, Outcome.response.injEq,
      forall_eq', hlength]
    exact ⟨fun hall => ⟨fun hcls => absurd hcls (by decide), fun _ => hall⟩,
      fun hall => hall.version rfl⟩
  case STATS =>
    simp only [STATS.execute, reply, Bool.false_eq_true, if_false, Outcome.response.injEq,
      forall_eq', ← STATS.response_eq, STATS.length_response]
    exact ⟨fun hall => ⟨fun _ => hall, fun hcls => absurd hcls (by decide)⟩,
      fun hall => hall.stats rfl⟩
  all_goals exact hother (by decide) (by decide) (hbrief rfl)

end Execute

namespace CommandProcessor

section Process

variable {σ : Type} {services : Services σ} {write : RecordWrite} {writeLong : LongWrite}
  {m : Memory} {inputPtr : Int} {inputSize : Nat} {outSize : Int} {s : σ} {bytes : List UInt8}

/-- A call of `process` throws what it does not catch on a bare gat or gats only. -/
theorem uncaught_iff (services : Services σ) (m : Memory) (inputPtr : Int) (inputSize : Nat)
    (outSize : Int) (s : σ) :
    (∃ e, (process services m inputPtr inputSize outSize s).result = .uncaught e) ↔
      Wire.BareTouch (m.slice inputPtr inputSize) := by
  rw [← not_iff_not, ← Parsing.failsAsDeclared_iff services.utils]
  unfold Parsing.FailsAsDeclared process
  cases (CommandParser.parse services.utils inputPtr inputSize).run m with
  | incomplete => simp
  | failed e => cases e <;> simp [Thrown.isIllegalFormat]
  | done cmd =>
    simp only [reduceCtorEq, false_implies, implies_true, iff_true]
    split_ifs
    · rintro ⟨e, he⟩
      cases houtcome : ((cmd.operation m).execute services outSize s).outcome <;>
        simp [houtcome, Outcome.result] at he
    · simp

theorem overflow_iff (hptr : 0 < inputPtr) :
    (process services m inputPtr inputSize outSize s).result = .bufferOverflow ↔
      ∃ cmd, (CommandParser.parse services.utils inputPtr inputSize).run m = .done cmd ∧
        (cmd.operation m).MeetsTooLarge services outSize s := by
  cases hparse : (CommandParser.parse services.utils inputPtr inputSize).run m with
  | incomplete => simp [process, hparse]
  | failed e => cases e <;> simp [process, hparse]
  | done cmd =>
    have hsafe := (Parsing.safeSlices_of_parse hparse).isMemorySafe hptr
    rw [Parsing.process_eq_of_isMemorySafe hparse hsafe]
    simp only [Verdict.done.injEq, exists_eq_left', ← Operation.overflow_iff]
    cases ((cmd.operation m).execute services outSize s).outcome <;> simp [Outcome.result]

theorem reply_fits_iff (h : RespectsBuffer services write writeLong) (hsize : 256 ≤ outSize)
    (hptr : 0 < inputPtr) :
    (∀ bytes, (process services m inputPtr inputSize outSize s).result = .response bytes →
        (bytes.length : Int) ≤ outSize) ↔
      ∀ cmd, (CommandParser.parse services.utils inputPtr inputSize).run m = .done cmd →
        ReplyFits services outSize cmd.cls s := by
  cases hparse : (CommandParser.parse services.utils inputPtr inputSize).run m with
  | incomplete => simp [process, hparse]
  | failed e =>
    refine iff_of_true (fun bytes hresult => ?_) fun cmd hdone => nomatch hdone
    cases e with
    | unsupportedCommand name =>
      simp only [process, hparse, ProcessResult.response.injEq] at hresult
      subst hresult
      have hlength : (ascii "ERROR\r\n").length = 7 := rfl
      omega
    | illegalFormat msg =>
      have hlength := length_message hparse
      simp only [process, hparse, ProcessResult.response.injEq] at hresult
      subst hresult
      omega
    | numberFormat | negativeArraySize | runaway => simp [process, hparse] at hresult
  | done cmd =>
    have hsafe := (Parsing.safeSlices_of_parse hparse).isMemorySafe hptr
    have hoperation := Operation.reply_fits_iff h hsize (cmd.operation m) s
    rw [Parsing.process_eq_of_isMemorySafe hparse hsafe]
    simp only [Verdict.done.injEq, forall_eq']
    refine Iff.trans (forall_congr' fun bytes => imp_congr_left ?_) hoperation
    cases ((cmd.operation m).execute services outSize s).outcome <;> simp [Outcome.result]

end Process

end CommandProcessor

namespace WorkThread

open CommandProcessor

variable {σ : Type} {services : Services σ} {write : RecordWrite} {writeLong : LongWrite}
  {bufferSize : Nat} {st : WorkThread σ}

/-- The command that stands at the front of the unconsumed bytes. -/
def Begins (services : Services σ) (st : WorkThread σ) (cmd : MemcachedCommand) : Prop :=
  (CommandParser.parse services.utils (st.inPtr + st.consumed)
    (st.inputSize - st.consumed).toNat).run st.memory = .done cmd

section Results

variable (services bufferSize) (hphase : st.phase = .processing) (hst : st.Bounded)
include hphase hst

theorem processed_eq_process : st.processed services bufferSize = process services st.memory
    (st.inPtr + st.consumed) (st.inputSize - st.consumed).toNat bufferSize st.store := by
  have hlength := length_unconsumed hphase hst
  rw [Int.toNat_of_nonneg (by omega)]
  rfl

theorem uncaught_iff_bareTouch :
    (∃ e, (st.processed services bufferSize).result = .uncaught e) ↔
      Wire.BareTouch st.unconsumed := by
  rw [processed_eq_process services bufferSize hphase hst, unconsumed_eq hphase, uncaught_iff]

theorem overflow_iff_meetsTooLarge :
    (st.processed services bufferSize).result = .bufferOverflow ↔
      ∃ cmd, st.Begins services cmd ∧
        (cmd.operation st.memory).MeetsTooLarge services bufferSize st.store := by
  have hpos := hst.inPtr_pos
  have hnonneg := hst.consumed_nonneg
  rw [processed_eq_process services bufferSize hphase hst, overflow_iff (by omega)]
  rfl

variable {bufferSize} in
theorem reply_fits_iff_replyFits (h : RespectsBuffer services write writeLong)
    (hsize : 256 ≤ bufferSize) :
    (∀ bytes, (st.processed services bufferSize).result = .response bytes →
        (bytes.length : Int) ≤ bufferSize) ↔
      ∀ cmd, st.Begins services cmd → ReplyFits services bufferSize cmd.cls st.store := by
  have hpos := hst.inPtr_pos
  have hnonneg := hst.consumed_nonneg
  rw [processed_eq_process services bufferSize hphase hst, reply_fits_iff h (by omega) (by omega)]
  rfl

variable (hne : st.unconsumed ≠ [])
include hne

omit hst in
theorem settles_iff_result :
    st.Settles services bufferSize ↔ ¬ Parsing.BareGet st.unconsumed ∧
      (¬ ∃ e, (st.processed services bufferSize).result = .uncaught e) ∧
      (st.processed services bufferSize).result ≠ .bufferOverflow ∧
      ∀ bytes, (st.processed services bufferSize).result = .response bytes →
        (bytes.length : Int) ≤ bufferSize := by
  have hfull : st.phase = .reading → st.inputSize = bufferSize → 0 < bufferSize →
      Errors.INPUT_TOO_LARGE.length ≤ bufferSize := by simp [hphase]
  constructor
  · intro hsettles
    have hreturns := hsettles.returns hphase hne
    refine ⟨hsettles.notBareGet hphase, ?_⟩
    cases hresult : (st.processed services bufferSize).result <;> simp_all
  · rintro ⟨hbare, huncaught, hoverflow, hreply⟩
    refine ⟨fun _ => hbare, fun _ _ => ?_, hfull⟩
    cases hresult : (st.processed services bufferSize).result <;> simp_all

variable {bufferSize} in
theorem dead_iff_result (hsize : 256 ≤ bufferSize) :
    (st.round services bufferSize).phase = .dead ↔
      (∃ e, (st.processed services bufferSize).result = .uncaught e) ∨
        ¬ ∀ bytes, (st.processed services bufferSize).result = .response bytes →
          (bytes.length : Int) ≤ bufferSize := by
  rw [round_of_ne_nil services bufferSize hphase hst hne]
  have hbounded : (st.afterProcess services bufferSize).Bounded :=
    ⟨hst.inPtr_pos, hst.position_eq, hst.consumed_nonneg, hst.consumed_le⟩
  have hafter : (st.afterProcess services bufferSize).phase = .processing := hphase
  cases hresult : (st.processed services bufferSize).result with
  | incomplete => simp [(compact_spec hafter hbounded).2.1]
  | response bytes =>
    by_cases hfits : bytes.length ≤ bufferSize
    · have hphase' : ((st.afterProcess services bufferSize).respond bufferSize bytes
          (st.processed services bufferSize).lastCommand).phase ≠ .dead := by
        rcases (st.afterProcess services bufferSize).respond_of_fits hfits
            (st.processed services bufferSize).lastCommand with hclosed | ⟨cmd, -, hrespond⟩
        · simp [hclosed]
        · simp [hrespond, hafter]
      simp [hphase', hfits]
    · simp [respond, Nat.lt_of_not_le hfits]
  | bufferOverflow =>
    have hroom : Errors.OUTPUT_TOO_LARGE.length ≤ bufferSize := Nat.le_trans (by decide) hsize
    simp [outputTooLarge, hroom]
  | exit | uncaught => simp

variable {bufferSize} in
theorem tooLarge_iff_result (hsize : 256 ≤ bufferSize) :
    (∃ output ∈ st.outputs services bufferSize, output.loop = .outputTooLarge) ↔
      (st.processed services bufferSize).result = .bufferOverflow := by
  have hlength := length_unconsumed hphase hst
  have hpos := List.length_pos_of_ne_nil hne
  have hmore : st.consumed < st.inputSize := by omega
  have hroom : Errors.OUTPUT_TOO_LARGE.length ≤ bufferSize := Nat.le_trans (by decide) hsize
  have hprocess : CommandProcessor.process services st.memory (st.inPtr + st.consumed)
      (st.inputSize - st.consumed) bufferSize st.store = st.processed services bufferSize := rfl
  simp only [outputs, hphase, hmore, if_true, hprocess]
  cases hresult : (st.processed services bufferSize).result with
  | bufferOverflow => simp [tooLargeOutputs, hroom]
  | response bytes => by_cases hlarge : bytes.length > bufferSize <;> simp [hlarge]
  | incomplete | exit | uncaught => simp

end Results

/-- A round by its input and the store: a bare get loses the input behind it, a bare gat and a reply
of stats or version that is too large are what `Serving.Thrown` stands for, and a retrieval that
comes to a record that is too large is what `Serving.Swallows` needs. On everything else the loop
goes on. -/
theorem round_ends_iff (h : RespectsBuffer services write writeLong) (hsize : 256 ≤ bufferSize)
    (hphase : st.phase = .processing) (hst : st.Bounded) (hne : st.unconsumed ≠ []) :
    (st.Settles services bufferSize ↔
      ¬ Parsing.BareGet st.unconsumed ∧ ¬ Wire.BareTouch st.unconsumed ∧
        ∀ cmd, st.Begins services cmd → ReplyFits services bufferSize cmd.cls st.store ∧
          ¬ (cmd.operation st.memory).MeetsTooLarge services bufferSize st.store) ∧
    ((st.round services bufferSize).phase = .dead ↔
      Wire.BareTouch st.unconsumed ∨
        ∃ cmd, st.Begins services cmd ∧ ¬ ReplyFits services bufferSize cmd.cls st.store) ∧
    ((∃ output ∈ st.outputs services bufferSize, output.loop = .outputTooLarge) ↔
      ∃ cmd, st.Begins services cmd ∧
        (cmd.operation st.memory).MeetsTooLarge services bufferSize st.store) := by
  have huncaught := uncaught_iff_bareTouch services bufferSize hphase hst
  have hoverflow := overflow_iff_meetsTooLarge services bufferSize hphase hst
  have hreply := reply_fits_iff_replyFits services hphase hst h hsize
  rw [settles_iff_result services bufferSize hphase hne,
    dead_iff_result services hphase hst hne hsize,
    tooLarge_iff_result services hphase hst hne hsize, huncaught, hreply, Ne, hoverflow]
  refine ⟨?_, ?_, Iff.rfl⟩
  · refine and_congr_right fun _ => and_congr_right fun _ => ?_
    simp only [not_exists, not_and]
    exact ⟨fun ⟨hmeets, hfits⟩ cmd hcmd => ⟨hfits cmd hcmd, hmeets cmd hcmd⟩,
      fun hall => ⟨fun cmd hcmd => (hall cmd hcmd).2, fun cmd hcmd => (hall cmd hcmd).1⟩⟩
  · simp only [not_forall, exists_prop]

/-- A bare gat, on which the thread ends. -/
theorem round_ends_gat :
    ∃ st : WorkThread ListStore, st.unconsumed = ascii "gat\r\nget k\r\n" ∧
      (st.round listServices 256).phase = .dead ∧
      (st.Settles listServices 256 ↔
        ¬ Parsing.BareGet st.unconsumed ∧ ¬ Wire.BareTouch st.unconsumed ∧
          ∀ cmd, st.Begins listServices cmd → ReplyFits listServices 256 cmd.cls st.store ∧
            ¬ (cmd.operation st.memory).MeetsTooLarge listServices 256 st.store) ∧
      ((∃ output ∈ st.outputs listServices 256, output.loop = .outputTooLarge) ↔
        ∃ cmd, st.Begins listServices cmd ∧
          (cmd.operation st.memory).MeetsTooLarge listServices 256 st.store) := by
  let st : WorkThread ListStore :=
    { phase := .processing, memory := Memory.ofBytes 100 (ascii "gat\r\nget k\r\n"), inPtr := 100
      position := 12, inputSize := 12, store := {} }
  have hbytes : st.unconsumed = ascii "gat\r\nget k\r\n" := by decide +kernel
  obtain ⟨hsettles, hdead, htooLarge⟩ := round_ends_iff (respectsBuffer_of_stats fun _ => [])
    (by decide : 256 ≤ 256) (show st.phase = .processing from rfl)
    ⟨by decide, rfl, by decide, by decide⟩ (by rw [hbytes]; decide)
  have hbare : Wire.BareTouch st.unconsumed :=
    ⟨.GAT, false, ascii "\nget k\r\n", .inl rfl, hbytes.trans (by decide +kernel)⟩
  exact ⟨st, hbytes, hdead.mpr (.inl hbare), hsettles, htooLarge⟩

end WorkThread

end Memcarrot
