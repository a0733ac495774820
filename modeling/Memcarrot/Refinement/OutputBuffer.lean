import Memcarrot.Server.InsideBuffer

open Incremental RawMemory

namespace Memcarrot

open RetrievalCommand (RecordWrite WritesRecords)

/-- A call in memory returns a result: a response stands in the output buffer. -/
def ProcessResult.ReturnedAt {σ : Type} (outBuffer : Int) (written : Written σ) :
    ProcessResult → Prop
  | .incomplete => written.returned = .length (-1)
  | .response bytes =>
    written.returned = .length bytes.length ∧ written.output.Holds outBuffer bytes
  | .bufferOverflow => written.returned = .bufferOverflow
  | .exit => written.returned = .exit
  | .uncaught e => written.returned = .uncaught e

/-- A command does in memory what it does on lists. -/
structure Written.Refines {σ : Type} (outBuffer : Int) (executed : Executed σ)
    (written : Written σ) : Prop where
  store : written.store = executed.store
  chunks : written.chunks = executed.chunks
  returned : executed.outcome.result.ReturnedAt outBuffer written

section Commands

variable {σ : Type} {outBuffer outBufferSize : Int} {m : Memory}

theorem Executed.copyTo_refines (executed : Executed σ) (outBuffer : Int) (o : Tracked) :
    (executed.copyTo outBuffer o).Refines outBuffer executed := by
  refine ⟨rfl, rfl, ?_⟩
  obtain ⟨store, chunks, outcome⟩ := executed
  cases outcome with
  | response bytes =>
    cases bytes with
    | nil => exact ⟨rfl, .nil _ _⟩
    | cons b bytes => exact ⟨rfl, .copy_start _ _ _⟩
  | bufferOverflow | exit => rfl

theorem Tracked.Holds.crlf {o : Tracked} {bytes : List UInt8} {dst : Int}
    (h : o.Holds outBuffer bytes) (hdst : dst = outBuffer + bytes.length) :
    (crlf dst o).Holds outBuffer (bytes ++ CRLF) := by
  have hsecond := (h.copy [CR] hdst).copy [LF] (show dst + 1 = outBuffer + (bytes ++ [CR]).length by
    rw [List.length_append, List.length_singleton]
    omega)
  rwa [List.append_assoc] at hsecond

theorem INCR.executeAt_refines {U : CacheUtils} {writeLong : LongWrite}
    {count : List UInt8 → Int → σ → Counted × σ} (hlong : WritesLongs U.longToStrDirect writeLong)
    (hcount : CountsLongs count) (op : Operation) (s : σ) (o : Tracked)
    (hsize : 256 ≤ outBufferSize) :
    (INCR.executeAt U writeLong count outBuffer outBufferSize op s o).Refines outBuffer
      (INCR.execute U count op s) := by
  unfold INCR.executeAt
  split
  · rename_i result hresult
    split_ifs with hvalue
    · rw [Bool.and_eq_true, decide_eq_true_eq, Bool.not_eq_true'] at hvalue
      have hdigits := hlong.length_le result hvalue.2 (hcount.value_lt hresult)
      have hfits : ((U.longToStrDirect result).length : Int) ≤ outBufferSize := by omega
      have hexecute : INCR.execute U count op s = ⟨(count op.key op.value s).2, [],
          .response (U.longToStrDirect result ++ CRLF)⟩ := by
        simp only [INCR.execute, hresult, reply, hvalue.1, ge_iff_le, hvalue.2, if_true]
        rfl
      simp only [hlong.fits hfits, hexecute]
      refine ⟨rfl, rfl, ?_, Tracked.Holds.crlf ?_ rfl⟩
      · rw [List.length_append]
        rfl
      · exact Memory.slice_write_self o.memory outBuffer (U.longToStrDirect result)
    · exact Executed.copyTo_refines _ _ _
  · exact Executed.copyTo_refines _ _ _

theorem FLUSH_ALL.executeAt_refines (support : Memcached σ) (op : Operation) (s : σ) (o : Tracked) :
    (FLUSH_ALL.executeAt support outBuffer op s o).Refines outBuffer
      (FLUSH_ALL.execute support op s) := by
  unfold FLUSH_ALL.executeAt FLUSH_ALL.execute reply
  simp only
  split_ifs
  · exact ⟨rfl, rfl, rfl, .nil _ _⟩
  · have hword := (Tracked.Holds.copy_start outBuffer [0x4F] o).copy [0x4B] rfl
    have hline := (hword.copy [CR] rfl).copy [LF] rfl
    exact ⟨rfl, rfl, rfl, hline⟩

theorem VERSION.executeAt_refines (version : Option (List UInt8)) (s : σ) (o : Tracked)
    (hlength : 10 + ((version.getD (ascii "unknown")).length : Int) ≤ outBufferSize)
    (hint : outBufferSize < 2 ^ 31) :
    (VERSION.executeAt version outBuffer s o).Refines outBuffer (VERSION.execute version s) := by
  have hword : (ascii "VERSION ").length = 8 := rfl
  have hcrlf : CRLF.length = 2 := rfl
  refine ⟨rfl, rfl, ?_, ?_⟩
  · show Returned.length (FLUSH_ALL.toInt _) = Returned.length _
    rw [toInt_of_le (by omega) hlength hint]
    congr 1
    simp only [Bool.false_eq_true, if_false, List.length_append, hword, hcrlf]
    omega
  · refine ((Tracked.Holds.copy_start outBuffer (ascii "VERSION ") o).copy _ rfl).copy CRLF ?_
    rw [List.length_append, hword]
    omega

namespace STATS

theorem response_eq (stats : List (List UInt8 × List UInt8)) :
    response stats = (stats.flatMap fun (name, value) =>
      ascii "STAT " ++ name ++ SP :: value ++ CRLF) ++ END := by
  unfold response
  rw [List.flatten_append, List.flatten_singleton]
  congr 1
  induction stats with
  | nil => rfl
  | cons stat stats ih =>
    rw [List.flatMap_cons, List.flatMap_cons, List.flatten_append, ih]
    simp [pieces]

theorem appendAll_holds (hint : outBufferSize < 2 ^ 31) (pieces : List (List UInt8))
    {front : List UInt8} {o : Tracked} (ho : o.Holds outBuffer front)
    (hall : ((front ++ pieces.flatten).length : Int) ≤ outBufferSize) :
    (appendAll outBuffer pieces (front.length, o)).2.Holds outBuffer (front ++ pieces.flatten) := by
  induction pieces generalizing front o with
  | nil => simpa [appendAll] using ho
  | cons bytes pieces ih =>
    rw [List.flatten_cons, ← List.append_assoc] at hall ⊢
    have hfits : ((front ++ bytes).length : Int) ≤ outBufferSize := by
      rw [List.length_append] at hall
      omega
    have happend : append outBuffer bytes (front.length, o) =
        (((front ++ bytes).length : Int), o.copy bytes (outBuffer + front.length)) := by
      rw [List.length_append] at hfits ⊢
      exact append_of_le (Int.natCast_nonneg _) hfits hint
    rw [appendAll, List.foldl_cons, happend]
    exact ih (ho.copy bytes rfl) hall

theorem executeAt_refines (support : Memcached σ) (s : σ) (o : Tracked)
    (hroom : (room (support.stats s) : Int) ≤ outBufferSize)
    (hint : outBufferSize < 2 ^ 31) :
    (executeAt support outBuffer s o).Refines outBuffer (execute support s) := by
  have hexecute : execute support s = ⟨s, [], .response (response (support.stats s))⟩ := by
    rw [response_eq]
    rfl
  have hlength : ((response (support.stats s)).length : Int) ≤ outBufferSize := by
    rwa [length_response]
  rw [executeAt, loop_eq_appendAll, hexecute]
  refine ⟨rfl, rfl, ?_, ?_⟩
  · show Returned.length (appendAll _ _ _).1 = Returned.length _
    rw [appendAll_of_le hint _ (Int.le_refl 0) (by rwa [Int.zero_add]), Int.zero_add]
    rfl
  · exact appendAll_holds hint _ (.nil outBuffer o) hlength

end STATS

variable (outBuffer) in
theorem RetrievalCommand.executeAt_refines (services : Services σ) {write : RecordWrite}
    (hwrite : WritesRecords services.support.write write) {op : Operation}
    (hop : op.cls.isRetrieval = true) (s : σ) (o : Tracked) (hsize : 256 ≤ outBufferSize) :
    (executeAt services.support write outBuffer outBufferSize op s o).Refines outBuffer
      (op.execute services outBufferSize s) := by
  obtain ⟨last, hretrieve, hchunks, hstore⟩ := op.retrieve_refines services hwrite hop outBuffer
    outBufferSize o.memory s (Nat.lt_succ_self _)
  obtain ⟨last', outcome, hrun, hlength, -, -⟩ := Loop.run_start hwrite.respectsSpace
    (show 5 ≤ outBufferSize by omega) (op.fetch services.support) op.cls.isCAS outBuffer op.keys
    o.memory s
  rw [← op.retrieve_eq_run, hretrieve, Option.some.injEq, Prod.mk.injEq] at hrun
  obtain ⟨rfl, rfl⟩ := hrun
  simp only [executeAt, hretrieve]
  refine ⟨hstore, hchunks, ?_⟩
  cases houtcome : (op.execute services outBufferSize s).outcome with
  | response bytes =>
    obtain ⟨hnonneg, -, hbytes⟩ := hlength bytes houtcome
    have hsize : (bytes.length : Int) = last.outSize := by
      rw [hbytes, Memory.length_slice]
      exact Int.toNat_of_nonneg hnonneg
    refine ⟨congrArg Returned.length hsize.symm, ?_⟩
    show last.memory.slice outBuffer bytes.length = bytes
    rw [← Int.toNat_natCast bytes.length, hsize]
    exact hbytes.symm
  | bufferOverflow | exit => rfl

variable (outBuffer) in
/-- Where its reply fits a command does in memory what it does on lists. -/
theorem Operation.executeAt_refines {services : Services σ} {write : RecordWrite}
    {writeLong : LongWrite} (h : RespectsBuffer services write writeLong)
    (hwrite : WritesRecords services.support.write write) (op : Operation) (s : σ) (o : Tracked)
    (hsize : 256 ≤ outBufferSize) (hint : outBufferSize < 2 ^ 31)
    (hfits : ReplyFits services outBufferSize op.cls s) :
    (op.executeAt services write writeLong outBuffer outBufferSize s o).Refines outBuffer
      (op.execute services outBufferSize s) := by
  have hcopied := Executed.copyTo_refines (op.execute services outBufferSize s) outBuffer o
  have hretrieval (hop : op.cls.isRetrieval = true) :=
    RetrievalCommand.executeAt_refines outBuffer services hwrite hop s o hsize
  obtain ⟨hstats, hversion⟩ := hfits
  unfold Operation.executeAt
  cases hcls : op.cls <;> simp only [hcls] at hretrieval hstats hversion ⊢
  case GET | GETS | GAT | GATS => exact hretrieval rfl
  case INCR =>
    rw [Operation.execute, hcls]
    exact INCR.executeAt_refines h.long h.incr op s o hsize
  case DECR =>
    rw [Operation.execute, hcls]
    exact INCR.executeAt_refines h.long h.decr op s o hsize
  case FLUSH_ALL =>
    rw [Operation.execute, hcls]
    exact FLUSH_ALL.executeAt_refines services.support op s o
  case VERSION =>
    rw [Operation.execute, hcls]
    exact VERSION.executeAt_refines services.version s o (hversion trivial) hint
  case STATS =>
    rw [Operation.execute, hcls]
    exact STATS.executeAt_refines services.support s o (hstats trivial) hint
  all_goals exact hcopied

end Commands

/-- Where every reply fits a call of `process` does in memory what it does on lists. -/
theorem CommandProcessor.processAt_refines {σ : Type} {services : Services σ} {write : RecordWrite}
    {writeLong : LongWrite} (h : RespectsBuffer services write writeLong)
    (hwrite : WritesRecords services.support.write write) (m : Memory)
    (inputPtr inputSize outPtr outSize : Int) (hsize : 256 ≤ outSize) (hint : outSize < 2 ^ 31)
    (s : σ) (hfits : ∀ cmd, (CommandParser.parse services.utils inputPtr inputSize).run m = .done cmd →
      ReplyFits services outSize cmd.cls s) :
    (processAt services write writeLong m inputPtr inputSize outPtr outSize s).store =
        (process services m inputPtr inputSize outSize s).store ∧
      (processAt services write writeLong m inputPtr inputSize outPtr outSize s).chunks =
        (process services m inputPtr inputSize outSize s).chunks ∧
      (process services m inputPtr inputSize outSize s).result.ReturnedAt outPtr
        (processAt services write writeLong m inputPtr inputSize outPtr outSize s) := by
  have hreply (response : List UInt8) :=
    Executed.copyTo_refines (reply false response s) outPtr { memory := m }
  unfold processAt process
  cases hparse : (CommandParser.parse services.utils inputPtr inputSize).run m with
  | incomplete => exact ⟨rfl, rfl, rfl⟩
  | failed e =>
    cases e with
    | unsupportedCommand name => exact ⟨rfl, rfl, (hreply (ascii "ERROR\r\n")).returned⟩
    | illegalFormat msg => exact ⟨rfl, rfl, (hreply _).returned⟩
    | numberFormat | negativeArraySize | runaway => exact ⟨rfl, rfl, rfl⟩
  | done cmd =>
    simp only
    split_ifs
    · have hrefines := Operation.executeAt_refines outPtr h hwrite (cmd.operation m) s
        { memory := m } hsize hint (hfits cmd hparse)
      exact ⟨hrefines.store, hrefines.chunks, hrefines.returned⟩
    · exact ⟨rfl, rfl, (hreply INTERNAL_ERROR).returned⟩

end Memcarrot
