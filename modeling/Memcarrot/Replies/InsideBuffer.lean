import Memcarrot.Commands.OutputBuffer

open RawMemory

namespace Memcarrot

open RetrievalCommand (RecordWrite)

/-- A `Record.write` that returns a size and writes nothing outside of the space it is given. -/
structure RespectsSpace (write : RecordWrite) : Prop where
  size_nonneg : ∀ {r key ptr space isCAS m}, r.value ≠ none → 0 ≤ (write r key ptr space isCAS m).1
  outside : ∀ {r key ptr space isCAS m a}, a < ptr ∨ ptr + space ≤ a →
    (write r key ptr space isCAS m).2 a = m a

/-- A `longToStrDirect` that writes the characters of a long if they fit, which are at most 20. -/
structure WritesLongs (encode : Int → List UInt8) (write : LongWrite) : Prop where
  length_le : ∀ value, 0 ≤ value → value < 2 ^ 63 → (encode value).length ≤ 20
  fits : ∀ {ptr space value m}, ((encode value).length : Int) ≤ space →
    write ptr space value m = (((encode value).length : Int), m.write ptr (encode value))

/-- An incr or decr of the store: its result is a long, its messages are shorter than 128 bytes. -/
structure CountsLongs {σ : Type} (count : List UInt8 → Int → σ → Counted × σ) : Prop where
  value_lt : ∀ {key value s result}, (count key value s).1 = .value result → result < 2 ^ 63
  message_lt : ∀ {key value s msg}, (count key value s).1 = .illegalArgument msg →
    msg.length < 128

/-- What is relied on in the cache library. -/
structure RespectsBuffer {σ : Type} (services : Services σ) (write : RecordWrite)
    (writeLong : LongWrite) : Prop where
  record : RespectsSpace write
  long : WritesLongs services.utils.longToStrDirect writeLong
  incr : CountsLongs services.support.incr
  decr : CountsLongs services.support.decr
  shutdown_lt : ∀ s msg, services.support.shutdown s = some msg → msg.length < 128

/-- A returned length is at most `size`. What does not end does not meet this. -/
def Returned.AtMost (size : Int) : Returned → Prop
  | .length n => n ≤ size
  | .bufferOverflow | .uncaught _ | .exit => True
  | .unfinished => False

/-- All writes go to the output buffer, and the returned length is not larger than it. -/
structure Written.Inside {σ : Type} (outBuffer outBufferSize : Int) (m : Memory)
    (written : Written σ) : Prop where
  within : written.output.Within outBuffer (outBuffer + outBufferSize) m
  returned : written.returned.AtMost outBufferSize

section Commands

variable {σ : Type} {outBuffer outBufferSize : Int} {m : Memory} {o : Tracked}

theorem Written.Inside.copyTo {executed : Executed σ}
    (ho : o.Within outBuffer (outBuffer + outBufferSize) m) (hsize : 256 ≤ outBufferSize)
    (h : ∀ bytes, executed.outcome = .response bytes → bytes.length ≤ 256) :
    (executed.copyTo outBuffer o).Inside outBuffer outBufferSize m := by
  obtain ⟨store, chunks, outcome⟩ := executed
  cases outcome with
  | response bytes =>
    have hbytes := h bytes rfl
    cases bytes with
    | nil => exact ⟨ho, show (0 : Int) ≤ outBufferSize by omega⟩
    | cons b bytes =>
      exact ⟨Tracked.within_copy.mpr ⟨ho, by omega, by omega⟩,
        show ((b :: bytes).length : Int) ≤ outBufferSize by omega⟩
  | bufferOverflow | exit => exact ⟨ho, trivial⟩

theorem length_reply {noreply : Bool} {response bytes : List UInt8} {s : σ}
    (h : (reply noreply response s).outcome = .response bytes) :
    bytes.length ≤ response.length := by
  cases h
  cases noreply with
  | true => exact Nat.zero_le _
  | false => exact Nat.le_refl _

/-- The commands whose responses have a bound in themselves. -/
def CommandClass.isBrief : CommandClass → Bool
  | .GET | .GETS | .GAT | .GATS | .INCR | .DECR | .VERSION | .STATS => false
  | _ => true

theorem length_execute (services : Services σ) {op : Operation} (hop : op.cls.isBrief = true)
    (hshutdown : ∀ s msg, services.support.shutdown s = some msg → msg.length < 128) {s : σ}
    {bytes : List UInt8} (h : (op.execute services outBufferSize s).outcome = .response bytes) :
    bytes.length ≤ 256 := by
  have hlength {response : List UInt8} {s : σ} (hresponse : response.length ≤ 256)
      (h : (reply op.noreply response s).outcome = .response bytes) : bytes.length ≤ 256 :=
    Nat.le_trans (length_reply h) hresponse
  unfold Operation.execute at h
  cases hcls : op.cls <;> simp only [hcls] at h hop
  case SET | ADD | REPLACE | APPEND | PREPEND =>
    refine hlength ?_ h
    split_ifs <;> decide
  case CAS =>
    refine hlength ?_ h
    split <;> decide
  case TOUCH | DELETE =>
    refine hlength ?_ h
    split_ifs <;> decide
  case FLUSH_ALL => exact hlength (by decide) h
  case SHUTDOWN =>
    unfold SHUTDOWN.execute at h
    split at h
    · cases h
    · have hmsg := hshutdown s _ ‹_›
      refine Nat.le_trans (length_reply h) ?_
      simp only [List.length_append, show (ascii "SERVER_ERROR ").length = 13 from rfl,
        show CRLF.length = 2 from rfl]
      omega
  case QUIT | SAVE | BGSAVE => exact Nat.le_trans (length_reply h) (by decide)
  all_goals cases hop

theorem within_crlf {lo hi ptr : Int} (ho : o.Within lo hi m) (hlo : lo ≤ ptr)
    (hhi : ptr + 2 ≤ hi) : (crlf ptr o).Within lo hi m := by
  refine Tracked.within_putByte.mpr ⟨Tracked.within_putByte.mpr ⟨ho, hlo, ?_⟩, ?_, ?_⟩
  all_goals omega

theorem within_ok {lo hi ptr : Int} (ho : o.Within lo hi m) (hlo : lo ≤ ptr)
    (hhi : ptr + 4 ≤ hi) : (ok ptr o).Within lo hi m := by
  unfold ok
  simp only [Tracked.within_putByte]
  refine ⟨⟨⟨⟨ho, ?_, ?_⟩, ?_, ?_⟩, ?_, ?_⟩, ?_, ?_⟩
  all_goals omega

theorem INCR.length_execute {U : CacheUtils} {writeLong : LongWrite}
    {count : List UInt8 → Int → σ → Counted × σ} (hlong : WritesLongs U.longToStrDirect writeLong)
    (hcount : CountsLongs count) {op : Operation} {s : σ} {bytes : List UInt8}
    (h : (INCR.execute U count op s).outcome = .response bytes) : bytes.length ≤ 256 := by
  have hcrlf : CRLF.length = 2 := rfl
  unfold INCR.execute at h
  simp only at h
  split at h
  · rename_i result hresult
    refine Nat.le_trans (length_reply h) ?_
    split_ifs with hvalue
    · have hdigits := hlong.length_le result hvalue (hcount.value_lt hresult)
      rw [List.length_append]
      omega
    · decide
  · exact Nat.le_trans (length_reply h) (by decide)
  · rename_i msg hmsg
    refine Nat.le_trans (length_reply h) ?_
    have hshort := hcount.message_lt hmsg
    simp only [List.length_append, show (ascii "CLIENT_ERROR ").length = 13 from rfl]
    omega

/-- A counter leaves room for the line end. -/
theorem INCR.executeAt_inside {U : CacheUtils} {writeLong : LongWrite}
    {count : List UInt8 → Int → σ → Counted × σ} (hlong : WritesLongs U.longToStrDirect writeLong)
    (hcount : CountsLongs count) (op : Operation) (s : σ)
    (ho : o.Within outBuffer (outBuffer + outBufferSize) m) (hsize : 256 ≤ outBufferSize) :
    (INCR.executeAt U writeLong count outBuffer outBufferSize op s o).Inside outBuffer
      outBufferSize m := by
  have hcopied : ((INCR.execute U count op s).copyTo outBuffer o).Inside outBuffer
      outBufferSize m := .copyTo ho hsize fun _ => INCR.length_execute hlong hcount
  unfold INCR.executeAt
  split
  · rename_i result hresult
    split_ifs with hvalue
    · rw [Bool.and_eq_true, decide_eq_true_eq] at hvalue
      have hdigits := hlong.length_le result hvalue.2 (hcount.value_lt hresult)
      have hfits : ((U.longToStrDirect result).length : Int) ≤ outBufferSize := by omega
      simp only [hlong.fits hfits]
      have hwritten : (o.call [⟨outBuffer, outBufferSize⟩]
          (o.memory.write outBuffer (U.longToStrDirect result))).Within outBuffer
          (outBuffer + outBufferSize) m := by
        refine (Tracked.within_call fun _ a ha => ?_).mpr ⟨ho, fun r hr => ?_⟩
        · exact Memory.write_of_outside _ _ (by omega)
        · rw [List.mem_singleton.mp hr]
          exact ⟨Int.le_refl _, Int.le_refl _⟩
      exact ⟨within_crlf hwritten (by omega) (by omega),
        show ((U.longToStrDirect result).length : Int) + 2 ≤ outBufferSize by omega⟩
    · exact hcopied
  · exact hcopied

theorem FLUSH_ALL.executeAt_inside (support : Memcached σ) (op : Operation) (s : σ)
    (ho : o.Within outBuffer (outBuffer + outBufferSize) m) (hsize : 256 ≤ outBufferSize) :
    (FLUSH_ALL.executeAt support outBuffer op s o).Inside outBuffer outBufferSize m := by
  unfold FLUSH_ALL.executeAt
  simp only
  split_ifs
  · exact ⟨ho, show (0 : Int) ≤ outBufferSize by omega⟩
  · exact ⟨within_ok ho (Int.le_refl _) (by omega), show (4 : Int) ≤ outBufferSize by omega⟩

theorem toInt_of_le {n : Int} (hnonneg : 0 ≤ n) (hle : n ≤ outBufferSize)
    (hint : outBufferSize < 2 ^ 31) : FLUSH_ALL.toInt n = n := by
  unfold FLUSH_ALL.toInt
  rw [Int.bmod_def]
  omega

/-- A version is inside if it leaves room for what is written around it. -/
theorem VERSION.executeAt_inside_iff (version : Option (List UInt8)) (s : σ)
    (ho : o.Within outBuffer (outBuffer + outBufferSize) m) (hsize : 256 ≤ outBufferSize)
    (hint : outBufferSize < 2 ^ 31) :
    (VERSION.executeAt version outBuffer s o).Inside outBuffer outBufferSize m ↔
      10 + ((version.getD (ascii "unknown")).length : Int) ≤ outBufferSize := by
  have hword : (ascii "VERSION ").length = 8 := rfl
  have hcrlf : CRLF.length = 2 := rfl
  unfold VERSION.executeAt
  constructor
  · rintro ⟨hwithin, -⟩
    simp only [Tracked.within_copy, hcrlf] at hwithin
    omega
  · intro hlength
    refine ⟨?_, ?_⟩
    · simp only [Tracked.within_copy, hcrlf, hword]
      refine ⟨⟨⟨ho, ?_, ?_⟩, ?_, ?_⟩, ?_, ?_⟩
      all_goals omega
    · show FLUSH_ALL.toInt _ ≤ outBufferSize
      rw [toInt_of_le (by omega) hlength hint]
      exact hlength

namespace STATS

/-- What is appended for a name and its value. -/
def pieces (stat : List UInt8 × List UInt8) : List (List UInt8) :=
  [ascii "STAT ", stat.1, [SP], stat.2, CRLF]

def appendAll (outBuffer : Int) (pieces : List (List UInt8)) (appended : Int × Tracked) :
    Int × Tracked :=
  pieces.foldl (fun appended bytes => append outBuffer bytes appended) appended

/-- The lines of the names and values with END behind them. -/
def response (stats : List (List UInt8 × List UInt8)) : List UInt8 :=
  (stats.flatMap pieces ++ [END]).flatten

/-- The room that the lines for names and values need, with END. -/
def room : List (List UInt8 × List UInt8) → Nat
  | [] => 5
  | (name, value) :: stats => name.length + value.length + 8 + room stats

theorem length_response (stats : List (List UInt8 × List UInt8)) :
    (response stats).length = room stats := by
  induction stats with
  | nil => rfl
  | cons stat stats ih =>
    have hsplit : response (stat :: stats) = (pieces stat).flatten ++ response stats := by
      simp only [response, List.flatMap_cons, List.append_assoc, List.flatten_append]
    rw [hsplit, List.length_append, ih, room]
    simp only [pieces, List.flatten_cons, List.length_append, List.flatten_nil, List.length_nil,
      List.length_singleton, show (ascii "STAT ").length = 5 from rfl,
      show CRLF.length = 2 from rfl]
    omega

theorem loop_eq_appendAll (stats : List (List UInt8 × List UInt8)) (appended : Int × Tracked) :
    append outBuffer END (loop outBuffer stats appended) =
      appendAll outBuffer (stats.flatMap pieces ++ [END]) appended := by
  induction stats generalizing appended with
  | nil => rfl
  | cons stat stats ih => exact ih _

theorem within_of_appendAll {lo hi : Int} (pieces : List (List UInt8)) {appended : Int × Tracked}
    (h : (appendAll outBuffer pieces appended).2.Within lo hi m) : appended.2.Within lo hi m := by
  induction pieces generalizing appended with
  | nil => exact h
  | cons bytes pieces ih => exact (Tracked.within_copy.mp (ih h)).1

theorem append_of_le {bytes : List UInt8} {off : Int} (hoff : 0 ≤ off)
    (hle : off + bytes.length ≤ outBufferSize) (hint : outBufferSize < 2 ^ 31) :
    append outBuffer bytes (off, o) = (off + bytes.length, o.copy bytes (outBuffer + off)) := by
  rw [append, toInt_of_le (by omega) hle hint]

/-- What is appended stays inside exactly where all of it fits. -/
theorem appendAll_within_iff (hint : outBufferSize < 2 ^ 31) (pieces : List (List UInt8))
    {off : Int} (hoff : 0 ≤ off) (hle : off ≤ outBufferSize) :
    (appendAll outBuffer pieces (off, o)).2.Within outBuffer (outBuffer + outBufferSize) m ↔
      o.Within outBuffer (outBuffer + outBufferSize) m ∧
        off + pieces.flatten.length ≤ outBufferSize := by
  induction pieces generalizing off o with
  | nil => simpa [appendAll] using fun _ => hle
  | cons bytes pieces ih =>
    rw [List.flatten_cons, List.length_append]
    by_cases hfits : off + bytes.length ≤ outBufferSize
    · rw [appendAll, List.foldl_cons, append_of_le hoff hfits hint]
      refine (ih (by omega) hfits).trans ?_
      rw [Tracked.within_copy]
      constructor
      · rintro ⟨⟨ho, -, -⟩, hrest⟩
        exact ⟨ho, by omega⟩
      · rintro ⟨ho, hall⟩
        exact ⟨⟨ho, by omega, by omega⟩, by omega⟩
    · refine ⟨fun h => ?_, fun ⟨_, hall⟩ => absurd hall (by omega)⟩
      have hcopied := Tracked.within_copy.mp (within_of_appendAll pieces h)
      exact absurd hcopied.2.2 (by omega)

theorem appendAll_of_le (hint : outBufferSize < 2 ^ 31) (pieces : List (List UInt8)) {off : Int}
    (hoff : 0 ≤ off) (hall : off + pieces.flatten.length ≤ outBufferSize) :
    (appendAll outBuffer pieces (off, o)).1 = off + pieces.flatten.length := by
  induction pieces generalizing off o with
  | nil => simp [appendAll]
  | cons bytes pieces ih =>
    rw [List.flatten_cons, List.length_append] at hall ⊢
    rw [appendAll, List.foldl_cons, append_of_le hoff (by omega) hint]
    refine (ih (by omega) (by omega)).trans ?_
    omega

theorem executeAt_inside_iff (support : Memcached σ) (s : σ)
    (ho : o.Within outBuffer (outBuffer + outBufferSize) m) (hsize : 256 ≤ outBufferSize)
    (hint : outBufferSize < 2 ^ 31) :
    (executeAt support outBuffer s o).Inside outBuffer outBufferSize m ↔
      (room (support.stats s) : Int) ≤ outBufferSize := by
  have hwithin : (appendAll outBuffer ((support.stats s).flatMap pieces ++ [END]) (0, o)).2.Within
      outBuffer (outBuffer + outBufferSize) m ↔ _ :=
    appendAll_within_iff hint _ (Int.le_refl 0) (by omega)
  have hlength : ((support.stats s).flatMap pieces ++ [END]).flatten.length =
      room (support.stats s) := length_response (support.stats s)
  rw [Int.zero_add, hlength] at hwithin
  rw [executeAt, loop_eq_appendAll]
  constructor
  · rintro ⟨hinside, -⟩
    exact (hwithin.mp hinside).2
  · intro hall
    refine ⟨hwithin.mpr ⟨ho, hall⟩, ?_⟩
    show (appendAll _ _ _).1 ≤ outBufferSize
    rw [appendAll_of_le hint _ (Int.le_refl 0) (by rwa [Int.zero_add, hlength]), Int.zero_add,
      hlength]
    exact hall

end STATS

end Commands

end Memcarrot
