import Memcarrot.Client.Results

namespace Memcarrot

open ClientCall Item SimpleClient

variable {P : Platform} {U : CacheUtils}

namespace RequestKind

/-- Where a read of a reply may stop: at its end, anywhere for incr and decr, before the ninth byte
for touch and delete. A storage reply is to be read at once. -/
def MayStop : RequestKind → List UInt8 → Prop
  | storage, front => front = [] ∨ front.getLast? = some LF
  | touch, front | delete, front => front.length < 9 ∨ front.getLast? = some LF
  | count, _ => True

variable {kind : RequestKind} {r : Reply} {front : List UInt8}

theorem exact_count (hr : Sends .count r) : Exact (getIncrDecrResponse P) r.line r.answer := by
  rcases hr with rfl | ⟨digits, rfl, hsmall⟩ | ⟨text, rfl, htext⟩
  · exact exact_notFound
  · exact (exact_number_iff digits).mpr hsmall
  · exact (exact_clientError_iff text).mpr htext

/-- A reply is one line. -/
theorem exists_body (hr : Sends kind r) : ∃ body, r.line = body ++ CRLF ∧ LF ∉ body := by
  cases r with
  | number digits =>
    refine ⟨digits.1, rfl, fun hmem => ?_⟩
    exact absurd (List.all_eq_true.mp digits.2.2 LF hmem) (by decide)
  | clientError text =>
    refine ⟨ascii "CLIENT_ERROR " ++ text, rfl, ?_⟩
    have htext : LF ∉ text := by
      cases kind with
      | count => simpa [Sends] using hr
      | storage | touch | delete => simp [Sends] at hr
    rw [List.mem_append, not_or]
    exact ⟨by decide, htext⟩
  | serverError text => cases kind <;> simp [Sends] at hr
  | stored => exact ⟨ascii "STORED", rfl, by decide⟩
  | notStored => exact ⟨ascii "NOT_STORED", rfl, by decide⟩
  | existing => exact ⟨ascii "EXISTS", rfl, by decide⟩
  | notFound => exact ⟨ascii "NOT_FOUND", rfl, by decide⟩
  | touched => exact ⟨ascii "TOUCHED", rfl, by decide⟩
  | deleted => exact ⟨ascii "DELETED", rfl, by decide⟩
  | error => exact ⟨ascii "ERROR", rfl, by decide⟩

/-- A line feed comes only with the end of a reply. -/
theorem getLast_ne_of_front (hr : Sends kind r) (hfront : front <+: r.line) (hne : front ≠ r.line) :
    front.getLast? ≠ some LF := by
  obtain ⟨body, hline, hbody⟩ := exists_body hr
  rw [hline] at hfront hne
  intro hlast
  obtain ⟨before, rfl⟩ := List.getLast?_eq_some_iff.mp hlast
  exact ne_append_of_front hbody hfront hne before rfl

theorem mayStop_line (hr : Sends kind r) : kind.MayStop r.line := by
  obtain ⟨body, hline, -⟩ := exists_body hr
  have hlast : r.line.getLast? = some LF := by
    rw [hline, List.getLast?_append]
    rfl
  cases kind with
  | storage | touch | delete => exact .inr hlast
  | count => trivial

/-- The beginning of a reply is waited for. -/
theorem waits (hr : Sends kind r) (hfront : front <+: r.line) (hne : front ≠ r.line)
    (hstop : kind.MayStop front) (stale : List UInt8) :
    kind.decoder P (.received front stale) = .ok (none, .received front stale) := by
  have hlast := getLast_ne_of_front hr hfront hne
  cases kind with
  | storage =>
    obtain rfl := hstop.resolve_right hlast
    rfl
  | touch => exact getNineResponse_eq_none (hstop.resolve_right hlast)
  | delete => exact getNineResponse_eq_none (hstop.resolve_right hlast)
  | count => exact (exact_count hr).incomplete front stale hfront hne

theorem getStorageResponse_line (hr : Sends .storage r) (stale : List UInt8) :
    ∃ buf, getStorageResponse P (.received r.line stale) = .ok (some r.answer, buf) := by
  rcases hr with rfl | rfl | rfl | rfl
  · have hS : (ByteBuffer.received STORED stale).getAt 0 = .ok 0x53 :=
      ByteBuffer.getAt_received stale rfl
    exact ⟨_, by simp only [getStorageResponse, Reply.line, hS]; rfl⟩
  · have hS : (ByteBuffer.received NOT_STORED stale).getAt 4 = .ok 0x53 :=
      ByteBuffer.getAt_received stale rfl
    exact ⟨_, by simp only [getStorageResponse, Reply.line, hS]; rfl⟩
  · have hE : (ByteBuffer.received EXISTS stale).getAt 0 = .ok 0x45 :=
      ByteBuffer.getAt_received stale rfl
    exact ⟨_, by simp only [getStorageResponse, Reply.line, hE]; rfl⟩
  · have hF : (ByteBuffer.received NOT_FOUND stale).getAt 4 = .ok 0x46 :=
      ByteBuffer.getAt_received stale rfl
    exact ⟨_, by simp only [getStorageResponse, Reply.line, hF]; rfl⟩

theorem getNineResponse_line {nine : ResponseCode} (hr : r.line.length = 9 ∧ r.answer = .code nine ∨
    r = .notFound) (stale : List UInt8) :
    ∃ buf, getNineResponse nine P (.received r.line stale) = .ok (some r.answer, buf) := by
  rcases hr with ⟨hnine, hanswer⟩ | rfl
  · exact ⟨_, (getNineResponse_nine hnine).trans (by rw [hanswer])⟩
  · exact ⟨_, rfl⟩

/-- A reply that is there as a whole is returned. -/
theorem answers (hr : Sends kind r) (stale : List UInt8) :
    ∃ buf, kind.decoder P (.received r.line stale) = .ok (some r.answer, buf) := by
  cases kind with
  | storage => exact getStorageResponse_line hr stale
  | touch => exact getNineResponse_line (hr.imp_left fun h => by rw [h]; exact ⟨rfl, rfl⟩) stale
  | delete => exact getNineResponse_line (hr.imp_left fun h => by rw [h]; exact ⟨rfl, rfl⟩) stale
  | count => exact (exact_count hr).complete stale

end RequestKind

namespace SimpleClient

section Bytes

variable {α : Type} {buf next : ByteBuffer} {count : Nat} {bytes : List UInt8}

theorem bytes_getBytes (h : onBuffer (buf.getBytes count) = .ok (bytes, next)) :
    next.bytes = buf.bytes := by
  unfold ByteBuffer.getBytes at h
  split_ifs at h
  · cases h
    rfl
  · cases h

theorem bytes_setPosition {position : Nat} (h : onBuffer (buf.setPosition position) = .ok next) :
    next.bytes = buf.bytes := by
  unfold ByteBuffer.setPosition at h
  split_ifs at h
  · cases h
    rfl
  · cases h

theorem bytes_getStorageResponse {answer : Option Answer}
    (h : getStorageResponse P buf = .ok (answer, next)) : next.bytes = buf.bytes := by
  simp only [getStorageResponse] at h
  split_ifs at h
  · obtain ⟨b, -, h⟩ := bind_eq_ok_iff.mp h
    split_ifs at h
    · cases h
      rfl
    · obtain ⟨b, -, h⟩ := bind_eq_ok_iff.mp h
      split_ifs at h <;> cases h <;> rfl
  · obtain ⟨b, -, h⟩ := bind_eq_ok_iff.mp h
    split_ifs at h <;> cases h <;> rfl
  · obtain ⟨b, -, h⟩ := bind_eq_ok_iff.mp h
    split_ifs at h
    · cases h
      rfl
    · obtain ⟨_, -, h⟩ := bind_eq_ok_iff.mp h
      cases h
  · obtain ⟨⟨b, after⟩, hbytes, h⟩ := bind_eq_ok_iff.mp h
    have hkept := bytes_getBytes hbytes
    simp only at h
    split_ifs at h <;> cases h <;> exact hkept
  · cases h
    rfl

theorem bytes_getNineResponse {nine : ResponseCode} {answer : Option Answer}
    (h : getNineResponse nine P buf = .ok (answer, next)) : next.bytes = buf.bytes := by
  simp only [getNineResponse] at h
  split_ifs at h
  · cases h
    rfl
  · cases h
    rfl
  · obtain ⟨_, -, h⟩ := bind_eq_ok_iff.mp h
    cases h
  · cases h
    rfl

theorem bytes_getIncrDecrResponse {answer : Option Answer}
    (h : getIncrDecrResponse P buf = .ok (answer, next)) : next.bytes = buf.bytes := by
  simp only [getIncrDecrResponse] at h
  split at h
  · cases h
    rfl
  obtain ⟨b, -, h⟩ := bind_eq_ok_iff.mp h
  split at h
  · cases h
    rfl
  obtain ⟨b, -, h⟩ := bind_eq_ok_iff.mp h
  split at h
  · cases h
    rfl
  obtain ⟨b, -, h⟩ := bind_eq_ok_iff.mp h
  split at h
  · cases h
    rfl
  split at h
  · cases h
  obtain ⟨⟨b, after⟩, hbytes, h⟩ := bind_eq_ok_iff.mp h
  have hkept := bytes_getBytes hbytes
  simp only at h
  split at h
  · cases h
    exact hkept
  · cases h

/-- What `parseLine` reads behind the header leaves the buffer as it is. -/
theorem bytes_block {valueSize : Int} {key : List UInt8} {flags : Int} {cas : Option Int}
    {one : Option GetResult}
    (h : (do
      let (_, buf) ← onBuffer (buf.getBytes 1)
      let (_, buf) ← onBuffer (buf.getBytes 1)
      if valueSize < 0 then throw .negativeArraySize
      else
        let (value, buf) ← onBuffer (buf.getBytes valueSize.toNat)
        let (_, buf) ← onBuffer (buf.getBytes 1)
        let (_, buf) ← onBuffer (buf.getBytes 1)
        return (some { key, value, flags, cas }, buf) : Except ClientException _) =
      .ok (one, next)) : next.bytes = buf.bytes := by
  obtain ⟨⟨cr, buf1⟩, hcr, h⟩ := bind_eq_ok_iff.mp h
  obtain ⟨⟨lf, buf2⟩, hlf, h⟩ := bind_eq_ok_iff.mp h
  split_ifs at h
  obtain ⟨⟨value, buf3⟩, hvalue, h⟩ := bind_eq_ok_iff.mp h
  obtain ⟨⟨cr', buf4⟩, hcr', h⟩ := bind_eq_ok_iff.mp h
  obtain ⟨⟨lf', buf5⟩, hlf', h⟩ := bind_eq_ok_iff.mp h
  cases h
  calc
    next.bytes = buf4.bytes := bytes_getBytes hlf'
    _ = buf3.bytes := bytes_getBytes hcr'
    _ = buf2.bytes := bytes_getBytes hvalue
    _ = buf1.bytes := bytes_getBytes hlf
    _ = buf.bytes := bytes_getBytes hcr

theorem bytes_parseLine {one : Option GetResult} (h : parseLine P U buf = .ok (one, next)) :
    next.bytes = buf.bytes := by
  unfold parseLine at h
  simp only at h
  by_cases hfive : buf.limit - buf.position = 5
  · rw [if_pos hfive] at h
    split_ifs at h
    cases h
    rfl
  rw [if_neg hfive] at h
  obtain ⟨off, -, h⟩ := bind_eq_ok_iff.mp h
  split_ifs at h
  obtain ⟨⟨bb, header⟩, hbb, h⟩ := bind_eq_ok_iff.mp h
  simp only at h
  obtain ⟨key, -, h⟩ := bind_eq_ok_iff.mp h
  obtain ⟨flagsText, -, h⟩ := bind_eq_ok_iff.mp h
  obtain ⟨flags, -, h⟩ := bind_eq_ok_iff.mp h
  have hheader := bytes_getBytes hbb
  refine Eq.trans ?_ hheader
  split_ifs at h
  · obtain ⟨casText, -, h⟩ := bind_eq_ok_iff.mp h
    obtain ⟨cas, -, h⟩ := bind_eq_ok_iff.mp h
    obtain ⟨sizeText, -, h⟩ := bind_eq_ok_iff.mp h
    obtain ⟨valueSize, -, h⟩ := bind_eq_ok_iff.mp h
    exact bytes_block h
  · obtain ⟨cas, -, h⟩ := bind_eq_ok_iff.mp h
    obtain ⟨sizeText, -, h⟩ := bind_eq_ok_iff.mp h
    obtain ⟨valueSize, -, h⟩ := bind_eq_ok_iff.mp h
    exact bytes_block h

theorem bytes_parseLines {result : List GetResult} (h : parseLines P U buf = .ok (result, next)) :
    next.bytes = buf.bytes := by
  generalize hlength : buf.remaining.length = length
  induction length using Nat.strong_induction_on generalizing buf result with
  | _ length ih =>
    cases hline : parseLine P U buf with
    | error e =>
      rw [parseLines_error hline] at h
      cases h
    | ok line =>
      obtain ⟨one, after⟩ := line
      have hkept := bytes_parseLine hline
      cases one with
      | none =>
        rw [parseLines_end hline] at h
        cases h
        exact hkept
      | some one =>
        rw [parseLines_next hline] at h
        cases hrest : parseLines P U after with
        | error e =>
          rw [hrest] at h
          cases h
        | ok rest =>
          rw [hrest] at h
          cases h
          exact (ih _ (hlength ▸ length_of_parseLine hline) hrest rfl).trans hkept

theorem bytes_getRetrievalResponse {cas : Bool} {result : Option (List GetResult)}
    (h : getRetrievalResponse P U cas buf = .ok (result, next)) : next.bytes = buf.bytes := by
  simp only [getRetrievalResponse] at h
  split_ifs at h
  · cases h
    rfl
  · cases h
    rfl
  · obtain ⟨after, hafter, h⟩ := bind_eq_ok_iff.mp h
    cases h
    exact (bytes_setPosition hafter).trans rfl
  · obtain ⟨back, hback, h⟩ := bind_eq_ok_iff.mp h
    have hkept := bytes_setPosition hback
    split_ifs at h
    · obtain ⟨forth, hforth, h⟩ := bind_eq_ok_iff.mp h
      cases h
      exact (bytes_setPosition hforth).trans hkept
    · obtain ⟨forth, hforth, h⟩ := bind_eq_ok_iff.mp h
      obtain ⟨⟨result, last⟩, hlines, h⟩ := bind_eq_ok_iff.mp h
      cases h
      exact (bytes_parseLines hlines).trans ((bytes_setPosition hforth).trans hkept)

end Bytes

section Retrieval

variable {front : List UInt8} {buf : ByteBuffer}

/-- The first five bytes of a response were read on their own: the limit is left behind them, and
there is no room for another byte. -/
structure Stuck (front : List UInt8) (buf : ByteBuffer) : Prop where
  length_front : front.length = 5
  position : buf.position = 5
  limit : buf.limit = 5
  bytes : buf.bytes.take 5 = front

theorem getRetrievalResponse_waits (cas : Bool) (stale : List UInt8) (hend : ¬ END <:+ front) :
    ∃ next, getRetrievalResponse P U cas (.received front stale) = .ok (none, next) ∧
      (next = .received front stale ∨ Stuck front next) := by
  rcases Nat.lt_trichotomy front.length 5 with hshort | hfive | hlong
  · refine ⟨.received front stale, ?_, .inl rfl⟩
    have hposition : (ByteBuffer.received front stale).position = front.length := rfl
    simp only [getRetrievalResponse, hposition]
    rw [if_pos hshort]
    rfl
  · rw [getRetrievalResponse_five cas stale hfive, if_neg fun h => hend (by rw [h])]
    have hlimit : 5 ≤ (ByteBuffer.received front stale).flip.limit := hfive.ge
    rw [ByteBuffer.setPosition, dif_pos hlimit]
    refine ⟨_, rfl, .inr ⟨hfive, rfl, hfive, ?_⟩⟩
    exact List.take_left' hfive
  · rw [getRetrievalResponse_long cas stale hlong, if_neg hend]
    exact ⟨_, rfl, .inl rfl⟩

theorem getRetrievalResponse_stuck (cas : Bool) (hposition : buf.position = 5)
    (hend : buf.bytes.take 5 ≠ END) :
    ∃ next, getRetrievalResponse P U cas buf = .ok (none, next) ∧
      Stuck (buf.bytes.take 5) next := by
  have hlength : (buf.bytes.take 5).length = 5 := by
    have hle := buf.position_le
    have hlimit := buf.limit_le
    rw [List.length_take]
    omega
  have hflip : buf.flip.remaining.take 5 = buf.bytes.take 5 := by
    simp only [ByteBuffer.remaining, ByteBuffer.flip, hposition, List.drop_zero, List.take_take]
    rfl
  have hnot : ¬ atEnd U buf.flip = true := fun hatEnd => hend ((atEnd_iff hflip hlength).mp hatEnd)
  have hback : (5 : Nat) ≤ buf.flip.limit := hposition.ge
  simp only [getRetrievalResponse, hposition]
  rw [if_neg (by decide), if_pos trivial, if_neg hnot, ByteBuffer.setPosition, dif_pos hback]
  exact ⟨_, rfl, hlength, rfl, hposition, rfl⟩

theorem Stuck.put (h : Stuck front buf) {bytes : List UInt8} {next : ByteBuffer}
    (hput : buf.put bytes = some next) : bytes = [] ∧ next = buf := by
  have hnil : bytes = [] := by
    unfold ByteBuffer.put at hput
    split_ifs at hput with hroom
    rw [h.position, h.limit] at hroom
    exact List.eq_nil_of_length_eq_zero (by omega)
  subst hnil
  rw [ByteBuffer.put_nil, Option.some.injEq] at hput
  exact ⟨rfl, hput.symm⟩

theorem Stuck.waits (cas : Bool) (h : Stuck front buf) (hend : ¬ END <:+ front) :
    getRetrievalResponse P U cas buf = .ok (none, buf) := by
  have hflip : buf.flip.remaining.take 5 = front := by
    simp only [ByteBuffer.remaining, ByteBuffer.flip, h.position, List.drop_zero, List.take_take]
    exact h.bytes
  have hnot : ¬ atEnd U buf.flip = true := fun hatEnd =>
    hend (by rw [(atEnd_iff hflip h.length_front).mp hatEnd])
  have hback : buf.flip.setPosition 5 = .ok buf := by
    have hlimit : 5 ≤ buf.flip.limit := h.position.ge
    rw [ByteBuffer.setPosition, dif_pos hlimit]
    obtain ⟨bytes, position, limit, hposition, hle⟩ := buf
    obtain ⟨-, rfl, rfl, -⟩ := h
    rfl
  simp only [getRetrievalResponse, h.position, hback]
  rw [if_neg (by decide), if_pos trivial, if_neg hnot]
  rfl

end Retrieval

end SimpleClient

namespace ClientCall

/-- Where a read of the response may stop. -/
def MayStop (call : ClientCall) (front : List UInt8) : Prop :=
  ∀ kind, call.operation.cls.requestKind = some kind → kind.MayStop front

/-- The buffer between two reads of the response. -/
def Holds (call : ClientCall) (front : List UInt8) (buf : ByteBuffer) : Prop :=
  (∃ stale, buf = .received front stale) ∨
    call.operation.cls.requestKind = none ∧ Stuck front buf

/-- A call waits for the rest of its response, and returns the result once it is there. -/
structure Reads (P : Platform) (U : CacheUtils) (call : ClientCall) (out : List UInt8)
    (result : CallResult) : Prop where
  whole : call.MayStop out
  waits : ∀ {front buf}, front <+: out → front ≠ out → call.MayStop front → call.Holds front buf →
    ∃ next, call.getResponse P U buf = .ok (none, next) ∧ call.Holds front next
  answers : ∀ stale, ∃ next, call.getResponse P U (.received out stale) = .ok (some result, next)

variable {call : ClientCall}

theorem getResponse_of_kind {kind : RequestKind}
    (h : call.operation.cls.requestKind = some kind) :
    call.getResponse P U = fun buf => do
      let (response, buf) ← kind.decoder P buf
      return (response.map .answer, buf) := by
  cases call <;> cases h <;> rfl

theorem getResponse_of_retrieval (h : call.operation.cls.requestKind = none) :
    ∃ cas, call.getResponse P U = fun buf => do
      let (result, buf) ← getRetrievalResponse P U cas buf
      return (result.map .records, buf) := by
  cases call with
  | get | gat => exact ⟨false, rfl⟩
  | gets | gats => exact ⟨true, rfl⟩
  | _ => cases h

theorem bytes_getResponse {buf next : ByteBuffer} {result : Option CallResult}
    (h : call.getResponse P U buf = .ok (result, next)) : next.bytes = buf.bytes := by
  cases hkind : call.operation.cls.requestKind with
  | some kind =>
    rw [getResponse_of_kind hkind] at h
    obtain ⟨⟨answer, after⟩, hanswer, h⟩ := bind_eq_ok_iff.mp h
    cases h
    cases kind with
    | storage => exact bytes_getStorageResponse hanswer
    | touch | delete => exact bytes_getNineResponse hanswer
    | count => exact bytes_getIncrDecrResponse hanswer
  | none =>
    obtain ⟨cas, hresponse⟩ := getResponse_of_retrieval (P := P) (U := U) hkind
    rw [hresponse] at h
    obtain ⟨⟨records, after⟩, hrecords, h⟩ := bind_eq_ok_iff.mp h
    cases h
    exact bytes_getRetrievalResponse hrecords

/-- A reply of one line is read. -/
theorem reads_line {kind : RequestKind} (hkind : call.operation.cls.requestKind = some kind)
    {r : Reply} (hr : Sends kind r) : Reads P U call r.line (.answer r.answer) := by
  refine ⟨fun kind' hkind' => ?_, fun {front buf} hfront hne hstop hholds => ?_,
    fun stale => ?_⟩
  · obtain rfl := Option.some.inj (hkind.symm.trans hkind')
    exact RequestKind.mayStop_line hr
  · rcases hholds with ⟨stale, rfl⟩ | ⟨hnone, -⟩
    · have hwaits := RequestKind.waits (P := P) hr hfront hne (hstop kind hkind) stale
      refine ⟨.received front stale, ?_, .inl ⟨stale, rfl⟩⟩
      simp only [getResponse_of_kind hkind, hwaits]
      rfl
    · rw [hkind] at hnone
      cases hnone
  · obtain ⟨next, hnext⟩ := RequestKind.answers (P := P) hr stale
    exact ⟨next, by simp only [getResponse_of_kind hkind, hnext]; rfl⟩

/-- The records of a response are read, unless END stands in the data of one. -/
theorem reads_response (hkind : call.operation.cls.requestKind = none) {items : List Item}
    (hitems : ∀ item ∈ items, ReadableItem P item) :
    Reads P U call (response items) (.records (items.map result)) := by
  obtain ⟨cas, hresponse⟩ := getResponse_of_retrieval (P := P) (U := U) hkind
  refine ⟨fun kind hkind' => ?_, fun {front buf} hfront hne _ hholds => ?_, fun stale => ?_⟩
  · rw [hkind] at hkind'
    cases hkind'
  · have hend : ¬ END <:+ front := by
      intro hend
      obtain ⟨item, hmem, hinside⟩ := end_infix_of_response hfront hne hend
      exact (hitems item hmem).1 hinside
    rcases hholds with ⟨stale, rfl⟩ | ⟨-, hstuck⟩
    · obtain ⟨next, hnext, hholds⟩ :=
        getRetrievalResponse_waits (P := P) (U := U) cas stale hend
      refine ⟨next, by simp only [hresponse, hnext]; rfl, ?_⟩
      exact hholds.imp (fun h => ⟨stale, h⟩) fun h => ⟨hkind, h⟩
    · exact ⟨buf, by simp only [hresponse, hstuck.waits cas hend]; rfl, .inr ⟨hkind, hstuck⟩⟩
  · have hmap : items.map (decoded P) = items.map result :=
      List.map_congr_left fun item hmem => by rw [decoded, (hitems item hmem).2]; rfl
    obtain ⟨next, hnext⟩ := getRetrievalResponse_response (P := P) (U := U) cas stale items
    exact ⟨next, by simp only [hresponse, hnext, hmap]; rfl⟩

section Executed

variable {σ : Type} {services : Services σ} {size : Int} {s : σ} {bytes : List UInt8}

/-- What the server sends to a call is read as what the call is to return. -/
structure Understood (P : Platform) (U : CacheUtils) (call : ClientCall) (sent : List UInt8)
    (result : CallResult) : Prop where
  silent : call.noreply = true → sent = [] ∧ result = .null
  reads : call.noreply = false → Reads P U call sent result

theorem understood_of_kind
    (hprint : ∀ value, 0 ≤ value → services.utils.longToStrDirect value = Decimal.toString value)
    {kind : RequestKind} (hkind : call.operation.cls.requestKind = some kind)
    (hreadable : call.Readable P services.support size s)
    (houtcome : (call.operation.execute services size s).outcome = .response bytes) :
    Understood P U call ((call.operation.execute services size s).chunks.flatten ++ bytes)
        (call.perform services.support s).1 ∧
      (call.operation.execute services size s).store = (call.perform services.support s).2 := by
  obtain ⟨r, hr, hexecute, hresult⟩ := exists_reply size hprint hkind hreadable
  rw [hexecute] at houtcome ⊢
  obtain rfl := Outcome.response.inj houtcome
  refine ⟨⟨fun hnoreply => ?_, fun hreply => ?_⟩, rfl⟩
  · refine ⟨by simp [reply, hnoreply], ?_⟩
    rw [hresult, answered, if_pos hnoreply]
  · have hreads := reads_line (P := P) (U := U) hkind hr
    simpa [hresult, answered, reply, hreply] using hreads

theorem understood_of_retrieval (hkind : call.operation.cls.requestKind = none)
    (hreadable : call.Readable P services.support size s)
    (houtcome : (call.operation.execute services size s).outcome = .response bytes) :
    Understood P U call ((call.operation.execute services size s).chunks.flatten ++ bytes)
        (call.perform services.support s).1 ∧
      (call.operation.execute services size s).store = (call.perform services.support s).2 := by
  have hreads {fetch : List UInt8 → σ → Record × σ} {withCas : Bool} {keys : List (List UInt8)}
      (hrecords :
        ReadableRetrieval P fetch (services.support.write · · withCas) withCas size keys s)
      (hperform : call.perform services.support s = fetched (records fetch withCas keys s))
      (hexecute : call.operation.execute services size s = RetrievalCommand.executeLoop fetch
        (services.support.write · · withCas) size keys [] s)
      (hnoreply : call.noreply = false) :
      Understood P U call ((call.operation.execute services size s).chunks.flatten ++ bytes)
          (call.perform services.support s).1 ∧
        (call.operation.execute services size s).store = (call.perform services.support s).2 := by
    rw [hexecute] at houtcome ⊢
    obtain ⟨items, hsent, hresults, hstore, hitems⟩ := exists_items_of_readable hrecords houtcome
    rw [hsent, hstore, hperform, fetched, ← hresults]
    refine ⟨⟨fun h => ?_, fun _ => ?_⟩, rfl⟩
    · rw [hnoreply] at h
      cases h
    · exact reads_response hkind hitems
  cases call with
  | get | gets | gat | gats => exact hreads hreadable rfl rfl rfl
  | _ => cases hkind

theorem understood_of_readable
    (hprint : ∀ value, 0 ≤ value → services.utils.longToStrDirect value = Decimal.toString value)
    (hreadable : call.Readable P services.support size s)
    (houtcome : (call.operation.execute services size s).outcome = .response bytes) :
    Understood P U call ((call.operation.execute services size s).chunks.flatten ++ bytes)
        (call.perform services.support s).1 ∧
      (call.operation.execute services size s).store = (call.perform services.support s).2 := by
  cases hkind : call.operation.cls.requestKind with
  | some kind => exact understood_of_kind hprint hkind hreadable houtcome
  | none => exact understood_of_retrieval hkind hreadable houtcome

end Executed

end ClientCall

end Memcarrot
