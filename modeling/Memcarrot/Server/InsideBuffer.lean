import Memcarrot.Refinement.Parser
import Memcarrot.Retrieval.InsideBuffer
import Memcarrot.Server.OutputBuffer
import Memcarrot.Support.ListStore
import Memcarrot.Wire.Failures

open Incremental RawMemory

namespace Memcarrot

open RetrievalCommand (RecordWrite)

/-- The lines of stats and the version, which are copied whatever their length, fit in. -/
structure ReplyFits {σ : Type} (services : Services σ) (outSize : Int) (cls : CommandClass)
    (s : σ) : Prop where
  stats : cls = .STATS → (STATS.room (services.support.stats s) : Int) ≤ outSize
  version : cls = .VERSION →
    10 + ((services.version.getD (ascii "unknown")).length : Int) ≤ outSize

section Process

variable {σ : Type} {services : Services σ} {write : RecordWrite} {writeLong : LongWrite}
  {m : Memory} {outPtr outSize : Int} {o : Tracked}

/-- A command writes inside of the output buffer exactly where its reply fits. -/
theorem Operation.executeAt_inside_iff (h : RespectsBuffer services write writeLong)
    (op : Operation) (s : σ) (ho : o.Within outPtr (outPtr + outSize) m) (hsize : 256 ≤ outSize)
    (hint : outSize < 2 ^ 31) :
    (op.executeAt services write writeLong outPtr outSize s o).Inside outPtr outSize m ↔
      ReplyFits services outSize op.cls s := by
  have hfits (hstats : op.cls ≠ .STATS) (hversion : op.cls ≠ .VERSION) :
      ReplyFits services outSize op.cls s :=
    ⟨fun hcls => absurd hcls hstats, fun hcls => absurd hcls hversion⟩
  have hbrief (hop : op.cls.isBrief = true) :
      ((op.execute services outSize s).copyTo outPtr o).Inside outPtr outSize m :=
    .copyTo ho hsize fun _ => length_execute services hop h.shutdown_lt
  unfold Operation.executeAt
  cases hcls : op.cls <;> simp only [hcls] at hfits hbrief ⊢
  case GET | GETS | GAT | GATS =>
    exact iff_of_true (RetrievalCommand.executeAt_inside h.record _ op s ho hsize)
      (hfits (by decide) (by decide))
  case INCR =>
    exact iff_of_true (INCR.executeAt_inside h.long h.incr op s ho hsize)
      (hfits (by decide) (by decide))
  case DECR =>
    exact iff_of_true (INCR.executeAt_inside h.long h.decr op s ho hsize)
      (hfits (by decide) (by decide))
  case FLUSH_ALL =>
    exact iff_of_true (FLUSH_ALL.executeAt_inside _ op s ho hsize) (hfits (by decide) (by decide))
  case VERSION =>
    rw [VERSION.executeAt_inside_iff services.version s ho hsize hint]
    exact ⟨fun hall => ⟨(fun hne => nomatch hne), fun _ => hall⟩, fun hall => hall.version rfl⟩
  case STATS =>
    rw [STATS.executeAt_inside_iff services.support s ho hsize hint]
    exact ⟨fun hall => ⟨fun _ => hall, (fun hne => nomatch hne)⟩, fun hall => hall.stats rfl⟩
  all_goals exact iff_of_true (hbrief rfl) (hfits (by decide) (by decide))

/-- The messages of the parsers leave room for what is put around them. -/
theorem length_message {inputPtr : Int} {inputSize : Nat} {msg : String}
    (h : (CommandParser.parse services.utils inputPtr inputSize).run m =
      .failed (.illegalFormat msg)) :
    (ascii ("CLIENT_ERROR " ++ msg ++ "\r\n")).length ≤ 256 := by
  rw [Refinement.parse_run] at h
  have hbare : ¬ Wire.BareTouch (m.slice inputPtr inputSize) := by
    intro hbare
    rw [Wire.parse_of_bareTouch hbare] at h
    cases h
  have hshort : msg.length ≤ 40 :=
    of_decide_eq_true (Wire.illegalFormatOnly_parse services.utils hbare _ h).2
  have hlength : (ascii ("CLIENT_ERROR " ++ msg ++ "\r\n")).length = 13 + msg.length + 2 := by
    simp only [ascii, List.length_map, String.length_toList, String.length_append]
    rfl
  omega

end Process

/-- A `longToStrDirect` that writes nothing where the characters do not fit. -/
def writeLongIfFits (encode : Int → List UInt8) : LongWrite := fun ptr space value m =>
  let digits := encode value
  (digits.length, if (digits.length : Int) ≤ space then m.write ptr digits else m)

theorem writesLongs_toString : WritesLongs Decimal.toString (writeLongIfFits Decimal.toString) where
  length_le value hnonneg hlt := by
    have hdigits : (Nat.toDigits 10 value.natAbs).length ≤ 20 :=
      (Nat.length_toDigits_le_iff (by decide) (by decide)).mpr (by omega)
    rw [Decimal.toString, if_neg (Int.not_lt.mpr hnonneg), List.length_map]
    exact hdigits
  fits hfits := by simp only [writeLongIfFits, if_pos hfits]

theorem ListStore.countsLongs (next : Int → Int → Int) :
    CountsLongs fun key value => ListStore.count (next value) key where
  value_lt {key value s result} h := by
    simp only [count] at h
    split at h
    · cases h
      decide
    · split at h
      · cases h
      · simp only [Counted.value.injEq] at h
        split_ifs at h <;> omega
  message_lt {key value s msg} h := by
    simp only [count] at h
    split at h
    · cases h
    · split at h <;> cases h

/-- A list store with any stats keeps to what is relied on. -/
theorem respectsBuffer_of_stats (stats : ListStore → List (List UInt8 × List UInt8)) :
    RespectsBuffer { listServices with support := { ListStore.memcached with stats } }
      (RetrievalCommand.writeIfFits ListStore.encode) (writeLongIfFits Decimal.toString) where
  record := (RetrievalCommand.writeIfFits_writesRecords _).respectsSpace
  long := writesLongs_toString
  incr := ListStore.countsLongs fun value v => v + value
  decr := ListStore.countsLongs fun value v => max (v - value) 0
  shutdown_lt _ _ h := nomatch h

namespace CommandProcessor

/-- A call of `process` writes to the output buffer only, and returns no more than its size,
exactly where it executes no stats or version whose reply does not fit. -/
theorem processAt_inside_iff {σ : Type} {services : Services σ} {write : RecordWrite}
    {writeLong : LongWrite} (h : RespectsBuffer services write writeLong) (m : Memory)
    (inputPtr : Int) (inputSize : Nat) (outPtr outSize : Int) (hsize : 256 ≤ outSize)
    (hint : outSize < 2 ^ 31) (s : σ) :
    (processAt services write writeLong m inputPtr inputSize outPtr outSize s).Inside outPtr
        outSize m ↔
      ∀ cmd, (CommandParser.parse services.utils inputPtr inputSize).run m = .done cmd →
        ReplyFits services outSize cmd.cls s := by
  have ho : ({ memory := m } : Tracked).Within outPtr (outPtr + outSize) m := .start ..
  have hreply {response : List UInt8} (hresponse : response.length ≤ 256) :
      ((reply false response s).copyTo outPtr { memory := m }).Inside outPtr outSize m :=
    .copyTo ho hsize fun _ hbytes => Nat.le_trans (length_reply hbytes) hresponse
  unfold processAt
  cases hparse : (CommandParser.parse services.utils inputPtr inputSize).run m with
  | incomplete =>
    refine iff_of_true ⟨ho, ?_⟩ fun cmd hdone => nomatch hdone
    show (-1 : Int) ≤ outSize
    omega
  | failed e =>
    refine iff_of_true ?_ fun cmd hdone => nomatch hdone
    cases e with
    | unsupportedCommand name => exact hreply (by decide)
    | illegalFormat msg => exact hreply (length_message hparse)
    | numberFormat | negativeArraySize | runaway => exact ⟨ho, trivial⟩
  | done cmd =>
    simp only [Verdict.done.injEq, forall_eq']
    split_ifs with hsafe
    · exact Operation.executeAt_inside_iff h (cmd.operation m) s ho hsize hint
    · have hcls : cmd.cls.isAbstract = true := by
        by_contra habstract
        exact hsafe (by simp [isMemorySafe, habstract])
      refine iff_of_true (hreply (by decide)) ⟨fun hstats => ?_, fun hversion => ?_⟩
      · rw [hstats] at hcls
        cases hcls
      · rw [hversion] at hcls
        cases hcls

/-- The answer to stats with one line. -/
theorem processAt_inside_stats :
    RespectsBuffer
        { listServices with
          support := { ListStore.memcached with stats := fun _ => [(ascii "pid", ascii "1")] } }
        (RetrievalCommand.writeIfFits ListStore.encode) (writeLongIfFits Decimal.toString) ∧
      (processAt
        { listServices with
          support := { ListStore.memcached with stats := fun _ => [(ascii "pid", ascii "1")] } }
        (RetrievalCommand.writeIfFits ListStore.encode) (writeLongIfFits Decimal.toString)
        (Memory.ofBytes 100 (ascii "stats\r\n")) 100 (7 : Nat) 1000 256 {}).Inside 1000 256
          (Memory.ofBytes 100 (ascii "stats\r\n")) := by
  refine ⟨respectsBuffer_of_stats _, (processAt_inside_iff (respectsBuffer_of_stats _) _ 100 7 1000
    256 (by decide) (by decide) {}).mpr fun cmd hdone => ?_⟩
  exact ⟨fun _ => by decide, fun _ => by decide⟩

/-- A line of stats that is longer than the output buffer. -/
theorem not_processAt_inside_stats :
    ¬ ∀ (services : Services ListStore) (write : RecordWrite) (writeLong : LongWrite) (m : Memory)
      (inputPtr : Int) (inputSize : Nat) (outPtr outSize : Int) (s : ListStore),
      RespectsBuffer services write writeLong → 256 ≤ outSize → outSize < 2 ^ 31 →
      (processAt services write writeLong m inputPtr inputSize outPtr outSize s).Inside outPtr
        outSize m := by
  intro h
  have hreturned := (h _ _ _ (Memory.ofBytes 100 (ascii "stats\r\n")) 100 7 1000 256 {}
    (respectsBuffer_of_stats fun _ => [(ascii "version", List.replicate 250 0x78)]) (by decide)
    (by decide)).returned
  have hlength : (processAt
      { listServices with
        support := { ListStore.memcached with
          stats := fun _ => [(ascii "version", List.replicate 250 0x78)] } }
      (RetrievalCommand.writeIfFits ListStore.encode) (writeLongIfFits Decimal.toString)
      (Memory.ofBytes 100 (ascii "stats\r\n")) 100 (7 : Nat) 1000 256 {}).returned =
        .length 270 := by
    decide +kernel
  rw [hlength] at hreturned
  exact absurd hreturned (by decide : ¬ (270 : Int) ≤ 256)

end CommandProcessor

end Memcarrot
