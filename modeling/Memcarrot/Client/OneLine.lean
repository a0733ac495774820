import Memcarrot.Client.Responses

namespace Memcarrot

/-- A number that is written with digits only. -/
abbrev Digits := { digits : List UInt8 // digits ≠ [] ∧ digits.all Decimal.isDigit = true }

/-- A reply of one line. -/
inductive Reply where
  | stored | notStored | existing | notFound | touched | deleted
  | number (digits : Digits)
  | error
  | clientError (text : List UInt8)
  | serverError (text : List UInt8)
  deriving DecidableEq

namespace Reply

def line : Reply → List UInt8
  | stored => STORED
  | notStored => NOT_STORED
  | .existing => EXISTS
  | notFound => NOT_FOUND
  | touched => TOUCHED
  | deleted => DELETED
  | number digits => digits.1 ++ CRLF
  | error => ascii "ERROR\r\n"
  | clientError text => ascii "CLIENT_ERROR " ++ text ++ CRLF
  | serverError text => ascii "SERVER_ERROR " ++ text ++ CRLF

/-- The code or the number that a reply denotes. -/
def answer : Reply → Answer
  | stored => .code .STORED
  | notStored => .code .NOT_STORED
  | .existing => .code .EXISTS
  | notFound => .code .NOT_FOUND
  | touched => .code .TOUCHED
  | deleted => .code .DELETED
  | number digits => .number (Decimal.valueOfDigits 0 digits.1)
  | error => .code .ERROR
  | clientError _ => .code .CLIENT_ERROR
  | serverError _ => .code .SERVER_ERROR

def isError : Reply → Bool
  | error | clientError _ | serverError _ => true
  | _ => false

theorem eq_touched (r : Reply) (h : r.answer = .code .TOUCHED) : r = .touched := by
  cases r <;> first | rfl | cases h

theorem eq_deleted (r : Reply) (h : r.answer = .code .DELETED) : r = .deleted := by
  cases r <;> first | rfl | cases h

end Reply

/-- The requests that are answered with one line, incr and decr as one kind. -/
inductive RequestKind where
  | storage | touch | delete | count
  deriving DecidableEq, Repr

namespace RequestKind

/-- The replies that a request can get. -/
def Gets : RequestKind → Reply → Prop
  | storage, r =>
    r = .stored ∨ r = .notStored ∨ r = .existing ∨ r = .notFound ∨ r.isError = true
  | touch, r => r = .touched ∨ r = .notFound ∨ r.isError = true
  | delete, r => r = .deleted ∨ r = .notFound ∨ r.isError = true
  | count, r => (∃ digits, r = .number digits) ∨ r = .notFound ∨ r.isError = true

/-- The method of the client that reads the reply. -/
def decoder (P : Platform) : RequestKind → Decoder (Option Answer)
  | storage => SimpleClient.getStorageResponse P
  | touch => SimpleClient.getTouchResponse P
  | delete => SimpleClient.getDeleteResponse P
  | count => SimpleClient.getIncrDecrResponse P

/-- The replies that are told apart from every other one wherever a read stops. -/
def Decodes : RequestKind → Reply → Prop
  | storage, _ => False
  | touch, r => r = .touched
  | delete, r => r = .deleted
  | count, .notFound => True
  | count, .number digits => Decimal.valueOfDigits 0 digits.1 < 2 ^ 63
  | count, .clientError text => LF ∉ text
  | count, _ => False

end RequestKind

/-- A method of the client waits for the rest of a line, without a change of the buffer, and
returns the answer once all of it was received. -/
structure Exact (decoder : Decoder (Option Answer)) (line : List UInt8) (answer : Answer) :
    Prop where
  incomplete : ∀ received stale, received <+: line → received ≠ line →
    decoder (.received received stale) = .ok (none, .received received stale)
  complete : ∀ stale, ∃ buf, decoder (.received line stale) = .ok (some answer, buf)

namespace SimpleClient

variable {P : Platform} {line : List UInt8} {answer : Answer} {nine : ResponseCode}

theorem getNineResponse_eq_none {buf : ByteBuffer} (h : buf.position < 9) :
    getNineResponse nine P buf = .ok (none, buf) := by
  simp only [getNineResponse]
  rw [if_neg (by omega), if_neg (by omega), if_neg (by omega)]
  rfl

theorem getNineResponse_nine {buf : ByteBuffer} (h : buf.position = 9) :
    getNineResponse nine P buf = .ok (some (.code nine), buf) := by
  simp only [getNineResponse]
  rw [if_pos h]
  rfl

/-- Nine bytes are an answer, of whichever reply they are. -/
theorem exact_getNineResponse_iff :
    Exact (getNineResponse nine P) line answer ↔ line.length = 9 ∧ answer = .code nine := by
  constructor
  · intro h
    obtain ⟨buf, hcomplete⟩ := h.complete []
    rcases Nat.lt_trichotomy line.length 9 with hshort | hnine | hlong
    · rw [getNineResponse_eq_none hshort] at hcomplete
      cases hcomplete
    · rw [getNineResponse_nine hnine] at hcomplete
      cases hcomplete
      exact ⟨hnine, rfl⟩
    · have hlength : (line.take 9).length = 9 := by
        rw [List.length_take]
        omega
      have hincomplete := h.incomplete (line.take 9) [] (List.take_prefix ..) fun heq => by
        rw [heq] at hlength
        omega
      rw [getNineResponse_nine hlength] at hincomplete
      cases hincomplete
  · rintro ⟨hlength, rfl⟩
    refine ⟨fun received stale hfront hne => getNineResponse_eq_none ?_, fun stale =>
      ⟨_, getNineResponse_nine hlength⟩⟩
    have hle := hfront.length_le
    have hshorter : received.length ≠ line.length := fun heq => hne (hfront.eq_of_length heq)
    show received.length < 9
    omega

theorem getStorageResponse_one {b : UInt8} (hb : b.toNat < 128) (stale : List UInt8) :
    getStorageResponse P (.received [b] stale) = .error (.runtime [asciiChar b]) := by
  have hdecode : P.decode [b] = [asciiChar b] := Platform.decode_eq_map (by simpa using hb)
  have hstarts (word : Text) (hword : 1 < word.length) :
      Text.startsWith [asciiChar b] word = false := by
    rw [Text.startsWith, ← Bool.not_eq_true, List.isPrefixOf_iff_prefix]
    intro hfront
    have hle := hfront.length_le
    simp only [List.length_singleton] at hle
    omega
  obtain ⟨buf, hget⟩ := ByteBuffer.getBytes_flip_received [b] stale (Nat.le_refl 1)
  have hposition : (ByteBuffer.received [b] stale).position = 1 := rfl
  simp only [getStorageResponse, hposition, hget, onBuffer_ok, ok_bind, List.take_succ_cons,
    List.take_zero, hdecode]
  rw [if_neg (by decide), if_neg (by decide), if_neg (by decide), if_pos (by decide),
    hstarts _ (by decide), hstarts _ (by decide), hstarts _ (by decide)]
  rfl

/-- One byte is no answer, of whichever reply it is. -/
theorem not_exact_getStorageResponse {b : UInt8} {rest : List UInt8} (hb : b.toNat < 128)
    (hrest : rest ≠ []) : ¬ Exact (getStorageResponse P) (b :: rest) answer := by
  intro h
  have hincomplete := h.incomplete [b] [] ⟨rest, rfl⟩ (by simpa using Ne.symm hrest)
  rw [getStorageResponse_one hb] at hincomplete
  cases hincomplete

theorem getIncrDecrResponse_eq_none {received : List UInt8} (stale : List UInt8)
    (h : ∀ front, received ≠ front ++ [LF]) :
    getIncrDecrResponse P (.received received stale) = .ok (none, .received received stale) := by
  have hposition : (ByteBuffer.received received stale).position = received.length := rfl
  rcases List.eq_nil_or_concat received with rfl | ⟨front, b, rfl⟩
  · rfl
  · have hb : b ≠ LF := by
      rintro rfl
      exact h front (List.concat_eq_append ..)
    rw [List.concat_eq_append] at hposition ⊢
    have hlast : (ByteBuffer.received (front ++ [b]) stale).getAt ((front ++ [b]).length - 1) =
        .ok b := ByteBuffer.getAt_received stale (by simp)
    simp only [getIncrDecrResponse, hposition, hlast, onBuffer_ok, ok_bind]
    rw [if_neg (by simp), if_pos hb]
    rfl

section Line

variable {received : List UInt8}

theorem position_received (received stale : List UInt8) :
    (ByteBuffer.received received stale).position = received.length := rfl

theorem getIncrDecrResponse_notFound (stale : List UInt8) (hlength : received.length = 11)
    (hfirst : received[0]? = some 0x4E) (hlast : received[received.length - 1]? = some LF) :
    getIncrDecrResponse P (.received received stale) =
      .ok (some (.code .NOT_FOUND), .received received stale) := by
  simp only [getIncrDecrResponse, position_received, ByteBuffer.getAt_received stale hfirst,
    ByteBuffer.getAt_received stale hlast, onBuffer_ok, ok_bind]
  rw [if_neg (by omega), if_neg (by simp), if_pos ⟨hlength, trivial⟩]
  rfl

theorem getIncrDecrResponse_clientError (stale : List UInt8) (hfirst : received[0]? = some 0x43)
    (hlast : received[received.length - 1]? = some LF) :
    getIncrDecrResponse P (.received received stale) =
      .ok (some (.code .CLIENT_ERROR), .received received stale) := by
  have hne : received.length ≠ 0 := by
    intro hzero
    rw [List.eq_nil_of_length_eq_zero hzero] at hfirst
    cases hfirst
  simp only [getIncrDecrResponse, position_received, ByteBuffer.getAt_received stale hfirst,
    ByteBuffer.getAt_received stale hlast, onBuffer_ok, ok_bind]
  rw [if_neg hne, if_neg (by simp), if_neg (by simp), if_pos trivial]
  rfl

/-- Any other line is read as a number, without its last two bytes. -/
theorem getIncrDecrResponse_number (c : UInt8) (rest : List UInt8) (x : UInt8) (stale : List UInt8)
    (hN : c = 0x4E → rest.length ≠ 8) (hC : c ≠ 0x43) :
    ∃ buf, getIncrDecrResponse P (.received (c :: rest ++ [x, LF]) stale) =
      match P.parseLong (P.decode (c :: rest)) with
      | some value => .ok (some (.number value), buf)
      | none => .error .numberFormat := by
  obtain ⟨buf, hget⟩ := ByteBuffer.getBytes_flip_received (c :: rest ++ [x, LF]) stale
    (Nat.sub_le (c :: rest ++ [x, LF]).length 2)
  have htake : (c :: rest ++ [x, LF]).take ((c :: rest ++ [x, LF]).length - 2) = c :: rest := by
    simp
  have hfirst : (c :: rest ++ [x, LF])[0]? = some c := rfl
  have hlast : (c :: rest ++ [x, LF])[(c :: rest ++ [x, LF]).length - 1]? = some LF := by
    simp
  rw [htake] at hget
  refine ⟨buf, ?_⟩
  simp only [getIncrDecrResponse, position_received, ByteBuffer.getAt_received stale hfirst,
    ByteBuffer.getAt_received stale hlast, hget, onBuffer_ok, ok_bind]
  have hlength : (c :: rest ++ [x, LF]).length = rest.length + 3 := by simp
  have heleven : ¬ ((c :: rest ++ [x, LF]).length = 11 ∧ c = 0x4E) := fun h =>
    hN h.2 (by omega)
  rw [if_neg (by simp), if_neg (by simp), if_neg heleven, if_neg hC, if_neg (by simp)]
  cases P.parseLong (P.decode (c :: rest)) with
  | some value => rfl
  | none => rfl

end Line

/-- What is received of a line before its end does not end with a line feed of its own. -/
theorem ne_append_of_front {received body : List UInt8} (hbody : LF ∉ body)
    (hfront : received <+: body ++ CRLF) (hne : received ≠ body ++ CRLF) (front : List UInt8) :
    received ≠ front ++ [LF] := by
  rintro rfl
  have hbefore : front ++ [LF] <+: body ++ [CR] := by
    have hsplit : body ++ CRLF = (body ++ [CR]) ++ [LF] := by simp [CRLF]
    rw [hsplit] at hfront hne
    exact (List.prefix_concat_iff.mp hfront).resolve_left hne
  have hmem : LF ∈ body ++ [CR] := hbefore.subset (by simp)
  rcases List.mem_append.mp hmem with h | h
  · exact hbody h
  · exact absurd h (by decide)

/-- A line without a line feed of its own is waited for. -/
theorem exact_of_complete (body : List UInt8) (hbody : LF ∉ body)
    (hcomplete : ∀ stale, ∃ buf, getIncrDecrResponse P (.received (body ++ CRLF) stale) =
      .ok (some answer, buf)) : Exact (getIncrDecrResponse P) (body ++ CRLF) answer :=
  ⟨fun _ stale hfront hne =>
    getIncrDecrResponse_eq_none stale (ne_append_of_front hbody hfront hne), hcomplete⟩

/-- A line that starts with a letter and is neither NOT_FOUND nor a client error is not read. -/
theorem not_exact_of_letter (c : UInt8) (rest : List UInt8) (hN : c = 0x4E → rest.length ≠ 8)
    (hC : c ≠ 0x43) (hlo : 0x41 ≤ c.toNat) (hhi : c.toNat < 128) :
    ¬ Exact (getIncrDecrResponse P) (c :: rest ++ CRLF) answer := by
  intro h
  obtain ⟨buf, hcomplete⟩ := h.complete []
  obtain ⟨buf', hnumber⟩ := getIncrDecrResponse_number (P := P) c rest CR [] hN hC
  have hletter : P.parseLong (P.decode (c :: rest)) = none := by
    rw [Platform.parseLong, Platform.decode_cons hhi, Platform.parseSigned_eq_none]
    · rfl
    · rw [toNat_asciiChar]
      exact hhi
    · rw [toNat_asciiChar]
      exact hlo.trans_lt' (by decide)
  rw [hletter] at hnumber
  rw [show CRLF = [CR, LF] from rfl, hnumber] at hcomplete
  cases hcomplete

theorem exact_number_iff (digits : Digits) :
    Exact (getIncrDecrResponse P) (Reply.number digits).line (Reply.number digits).answer ↔
      Decimal.valueOfDigits 0 digits.1 < 2 ^ 63 := by
  obtain ⟨bytes, hne, hdigits⟩ := digits
  have hall (b : UInt8) (hb : b ∈ bytes) : Decimal.isDigit b = true :=
    List.all_eq_true.mp hdigits b hb
  have hvalue : P.parseLong (P.decode bytes) =
      if Decimal.valueOfDigits 0 bytes < 2 ^ 63 then some (Decimal.valueOfDigits 0 bytes : Int)
      else none := by
    rw [Platform.decode_eq_map fun b hb => Platform.lt_of_isDigit (hall b hb), Platform.parseLong,
      Platform.parseSigned_map hne hdigits, Option.filter_some]
    refine if_congr ?_ rfl rfl
    simp only [decide_eq_true_eq]
    omega
  have hLF : LF ∉ bytes := fun hmem => absurd (hall LF hmem) (by decide)
  cases bytes with
  | nil => exact absurd rfl hne
  | cons c rest =>
    have hletter (letter : UInt8) (h : Decimal.isDigit letter = false) : c ≠ letter := by
      rintro rfl
      rw [hall c List.mem_cons_self] at h
      cases h
    have hline (stale : List UInt8) := getIncrDecrResponse_number (P := P) c rest CR stale
      (fun h => absurd h (hletter 0x4E rfl)) (hletter 0x43 rfl)
    rw [hvalue] at hline
    constructor
    · intro h
      obtain ⟨buf, hcomplete⟩ := h.complete []
      obtain ⟨buf', hnumber⟩ := hline []
      by_contra hlarge
      rw [if_neg hlarge] at hnumber
      exact absurd (hcomplete.symm.trans hnumber) (by simp)
    · intro hsmall
      refine exact_of_complete _ hLF fun stale => ?_
      obtain ⟨buf, hnumber⟩ := hline stale
      rw [if_pos hsmall] at hnumber
      exact ⟨buf, hnumber⟩

theorem exact_clientError_iff (text : List UInt8) :
    Exact (getIncrDecrResponse P) (Reply.clientError text).line (.code .CLIENT_ERROR) ↔
      LF ∉ text := by
  constructor
  · intro h hmem
    obtain ⟨front, back, rfl⟩ := List.append_of_mem hmem
    have hincomplete := h.incomplete (ascii "CLIENT_ERROR " ++ front ++ [LF]) []
      ⟨back ++ CRLF, by simp [Reply.line]⟩ (by simp [Reply.line, CRLF])
    rw [getIncrDecrResponse_clientError [] rfl (by simp)] at hincomplete
    cases hincomplete
  · intro hLF
    have hbody : LF ∉ ascii "CLIENT_ERROR " ++ text := by
      rw [List.mem_append, not_or]
      exact ⟨by decide, hLF⟩
    refine exact_of_complete _ hbody fun stale => ⟨_, getIncrDecrResponse_clientError stale rfl ?_⟩
    simp [CRLF]

theorem exact_notFound : Exact (getIncrDecrResponse P) NOT_FOUND (.code .NOT_FOUND) :=
  exact_of_complete (ascii "NOT_FOUND") (by decide) fun stale =>
    ⟨_, getIncrDecrResponse_notFound stale rfl rfl rfl⟩

end SimpleClient

open SimpleClient

/-- The replies that a method of the client reads right wherever a read stops: none to a storage
request, one of fixed length to touch and delete, and to incr and decr NOT_FOUND, the longs and the
client errors of one line. -/
theorem exact_reply_iff (P : Platform) (kind : RequestKind) (r : Reply) :
    Exact (kind.decoder P) r.line r.answer ↔ kind.Decodes r := by
  cases kind with
  | storage =>
    refine iff_of_false ?_ id
    cases r with
    | number digits =>
      obtain ⟨bytes, hne, hdigits⟩ := digits
      cases bytes with
      | nil => exact absurd rfl hne
      | cons b bytes =>
        have hb : Decimal.isDigit b = true := List.all_eq_true.mp hdigits b List.mem_cons_self
        exact not_exact_getStorageResponse (Platform.lt_of_isDigit hb) (by simp [CRLF])
    | clientError text | serverError text =>
      exact not_exact_getStorageResponse (by decide) (by simp [CRLF])
    | _ => exact not_exact_getStorageResponse (by decide) (by decide)
  | touch =>
    refine exact_getNineResponse_iff.trans ⟨fun h => r.eq_touched h.2, ?_⟩
    rintro rfl
    exact ⟨rfl, rfl⟩
  | delete =>
    refine exact_getNineResponse_iff.trans ⟨fun h => r.eq_deleted h.2, ?_⟩
    rintro rfl
    exact ⟨rfl, rfl⟩
  | count =>
    have hletter (c : UInt8) (rest : List UInt8) (hN : c = 0x4E → rest.length ≠ 8)
        (hc : c ≠ 0x43 ∧ 0x41 ≤ c.toNat ∧ c.toNat < 128) {answer : Answer} :
        ¬ Exact (getIncrDecrResponse P) (c :: rest ++ CRLF) answer :=
      not_exact_of_letter c rest hN hc.1 hc.2.1 hc.2.2
    cases r with
    | notFound => exact iff_of_true exact_notFound trivial
    | number digits => exact exact_number_iff digits
    | clientError text => exact exact_clientError_iff text
    | serverError text =>
      exact iff_of_false (hletter 0x53 (ascii "ERVER_ERROR " ++ text)
        (fun h => absurd h (by decide)) (by decide)) id
    | stored => exact iff_of_false (hletter 0x53 (ascii "TORED") (by decide) (by decide)) id
    | notStored => exact iff_of_false (hletter 0x4E (ascii "OT_STORED") (by decide) (by decide)) id
    | existing => exact iff_of_false (hletter 0x45 (ascii "XISTS") (by decide) (by decide)) id
    | touched => exact iff_of_false (hletter 0x54 (ascii "OUCHED") (by decide) (by decide)) id
    | deleted => exact iff_of_false (hletter 0x44 (ascii "ELETED") (by decide) (by decide)) id
    | error => exact iff_of_false (hletter 0x45 (ascii "RROR") (by decide) (by decide)) id

/-- The kind of a request that is answered with one line. -/
def CommandClass.requestKind : CommandClass → Option RequestKind
  | .SET | .ADD | .REPLACE | .APPEND | .PREPEND | .CAS => some .storage
  | .TOUCH => some .touch
  | .DELETE => some .delete
  | .INCR | .DECR => some .count
  | _ => none

section Sent

variable {σ : Type} {op : Operation} {s : σ} {bytes response : List UInt8}

theorem reply_outcome {noreply : Bool} (h : (reply noreply response s).outcome = .response bytes)
    (hne : bytes ≠ []) : response = bytes := by
  unfold reply at h
  split_ifs at h with hnoreply
  · exact absurd (Outcome.response.inj h).symm hne
  · exact Outcome.response.inj h

theorem StorageCommand.gets_of_execute {store : List UInt8 → List UInt8 → Int → Int → σ →
    OpResult × σ} (h : (StorageCommand.execute store op s).outcome = .response bytes)
    (hne : bytes ≠ []) : ∃ r, RequestKind.storage.Gets r ∧ r.line = bytes := by
  have hsent := reply_outcome h hne
  split_ifs at hsent
  · exact ⟨.notStored, .inr (.inl rfl), hsent⟩
  · exact ⟨.stored, .inl rfl, hsent⟩

theorem CAS.gets_of_execute {support : Memcached σ}
    (h : (CAS.execute support op s).outcome = .response bytes) (hne : bytes ≠ []) :
    ∃ r, RequestKind.storage.Gets r ∧ r.line = bytes := by
  have hsent := reply_outcome h hne
  split at hsent
  · exact ⟨.existing, .inr (.inr (.inl rfl)), hsent⟩
  · exact ⟨.notFound, .inr (.inr (.inr (.inl rfl))), hsent⟩
  · exact ⟨.notStored, .inr (.inl rfl), hsent⟩
  · exact ⟨.stored, .inl rfl, hsent⟩

theorem INCR.gets_of_execute {U : CacheUtils} {count : List UInt8 → Int → σ → Counted × σ}
    (hprint : ∀ value, 0 ≤ value → U.longToStrDirect value = Decimal.toString value)
    (h : (INCR.execute U count op s).outcome = .response bytes) (hne : bytes ≠ []) :
    ∃ r, RequestKind.count.Gets r ∧ r.line = bytes := by
  unfold INCR.execute at h
  cases hrun : count op.key op.value s with
  | mk counted after =>
    rw [hrun] at h
    cases counted with
    | value result =>
      have hsent := reply_outcome h hne
      split_ifs at hsent with hresult
      · rw [hprint result hresult] at hsent
        have hdigits : (Decimal.toString result).all Decimal.isDigit = true := by
          rw [Decimal.toString, if_neg (by omega)]
          exact List.all_eq_true.mpr fun b hb => Decimal.isDigit_digits hb
        exact ⟨.number ⟨Decimal.toString result, Decimal.toString_ne_nil result, hdigits⟩,
          .inl ⟨_, rfl⟩, hsent⟩
      · exact ⟨.notFound, .inr (.inl rfl), hsent⟩
    | numberFormat =>
      exact ⟨.clientError (ascii "number format error"), .inr (.inr rfl),
        reply_outcome h hne⟩
    | illegalArgument msg =>
      exact ⟨.clientError msg, .inr (.inr rfl), reply_outcome h hne⟩

end Sent

/-- What the server sends to a request is a reply that the request can get. -/
theorem Operation.gets_of_execute {σ : Type} {services : Services σ}
    (hprint : ∀ value, 0 ≤ value → services.utils.longToStrDirect value = Decimal.toString value)
    {op : Operation} {kind : RequestKind} (hkind : op.cls.requestKind = some kind)
    {outBufferSize : Int} {s : σ} {bytes : List UInt8}
    (h : (op.execute services outBufferSize s).outcome = .response bytes) (hne : bytes ≠ []) :
    ∃ r, kind.Gets r ∧ r.line = bytes := by
  unfold Operation.execute at h
  cases hcls : op.cls <;> rw [hcls] at h hkind <;> cases hkind
  case SET | ADD | REPLACE | APPEND | PREPEND => exact StorageCommand.gets_of_execute h hne
  case CAS => exact CAS.gets_of_execute h hne
  case INCR | DECR => exact INCR.gets_of_execute hprint h hne
  case TOUCH =>
    have hsent := reply_outcome h hne
    split_ifs at hsent
    · exact ⟨.touched, .inl rfl, hsent⟩
    · exact ⟨.notFound, .inr (.inl rfl), hsent⟩
  case DELETE =>
    have hsent := reply_outcome h hne
    split_ifs at hsent
    · exact ⟨.deleted, .inl rfl, hsent⟩
    · exact ⟨.notFound, .inr (.inl rfl), hsent⟩

/-- A reply that is cut behind its ninth byte is another reply to touch. -/
theorem not_exact_touch_notFound :
    ¬ ∀ (P : Platform) (kind : RequestKind) (r : Reply), kind.Gets r →
      Exact (kind.decoder P) r.line r.answer := by
  intro h
  have hexact := h .iso88591 .touch .notFound (.inr (.inl rfl))
  have hincomplete := hexact.incomplete (ascii "NOT_FOUND") [] (by decide) (by decide)
  cases hincomplete

end Memcarrot
