import Memcarrot.Client.SimpleClient
import Memcarrot.Refinement.Parser
import Memcarrot.Wire.Consumption
import Memcarrot.Wire.Operations

open Incremental RawMemory

namespace Memcarrot.Client

open Wire

/-- The number parser of the cache library reads back what Long.toString writes. -/
def ReadsDecimal (U : CacheUtils) : Prop :=
  ∀ value : Int64, U.strToLongDirect (Decimal.toString value.toInt) = some value.toInt

theorem readsDecimal_decimalUtils : ReadsDecimal decimalUtils := fun value =>
  Decimal.parseLong_toString (by simpa using Int64.le_toInt value)
    (by simpa using Int64.toInt_lt value)

section Encoders

variable {U : CacheUtils} (hU : ReadsDecimal U)
include hU

theorem exists_number (value : Int) (hlo : -2 ^ 63 ≤ value) (hhi : value < 2 ^ 63) :
    ∃ n : Number U, n.token = Decimal.toString value ∧ n.value = value := by
  have hvalue : (Int64.ofInt value).toInt = value := Int64.toInt_ofInt_of_le (by omega) (by omega)
  have hread := hU (Int64.ofInt value)
  rw [hvalue] at hread
  exact ⟨⟨_, value, ⟨Decimal.toString_ne_nil value, fun _ => Decimal.isTokenByte_toString⟩, hread⟩,
    rfl, rfl⟩

theorem exists_long (value : Int64) :
    ∃ n : Number U, n.token = Decimal.toString value.toInt ∧ n.value = value.toInt :=
  exists_number hU value.toInt (by simpa using Int64.le_toInt value)
    (by simpa using Int64.toInt_lt value)

omit hU in
theorem lineEndBytes_noreply (noreply : Bool) :
    lineEndBytes (if noreply then some 0 else none) = SimpleClient.putNoreply noreply ++ CRLF := by
  cases noreply <;> rfl

omit hU in
theorem isSome_noreply (noreply : Bool) :
    (if noreply then some 0 else none : Option Nat).isSome = noreply := by
  cases noreply <;> rfl

/-- What the client writes for a storage command is a storage request. -/
theorem exists_storage {cls : CommandClass} (hcls : cls.isStorage = true) {key : List UInt8}
    (hkey : IsToken key) {value : List UInt8} (hvalue : value.length < 2 ^ 31) {flags : Int32}
    (hflags : 0 ≤ flags.toInt) (expire : Int64) (noreply : Bool) {unique : Option Int64}
    (hunique : unique.isSome = cls.isCAS) :
    ∃ r : Request U,
      r.bytes = SimpleClient.store cls.word key value flags expire noreply unique ∧
      r.operation =
        { ClientCall.storage cls key value flags expire noreply with
          cas := unique.elim 0 Int64.toInt } := by
  have hint := Int32.toInt_lt flags
  obtain ⟨flagsN, hflagsT, hflagsV⟩ := exists_number hU flags.toInt (by omega) (by omega)
  obtain ⟨expireN, hexpireT, hexpireV⟩ := exists_long hU expire
  obtain ⟨sizeN, hsizeT, hsizeV⟩ := exists_number hU value.length (by omega) (by omega)
  obtain ⟨casN, hisSome, hcasT, hcasV⟩ : ∃ casN : Option (Number U), casN.isSome = unique.isSome ∧
      fieldsBytes casN.toList = SimpleClient.putCas unique ∧
      casN.elim 0 Number.value = unique.elim 0 Int64.toInt := by
    cases unique with
    | none => exact ⟨none, rfl, rfl, rfl⟩
    | some unique =>
      obtain ⟨n, hT, hV⟩ := exists_long hU unique
      exact ⟨some n, rfl, by simp [SimpleClient.putCas, hT], hV⟩
  let r : StorageRequest U :=
    { cls, key := ⟨key, hkey⟩, flags := flagsN, exptime := expireN, size := sizeN, cas := casN
      gap := if noreply then some 0 else none
      block := value ++ CRLF
      isStorage := hcls
      cas_isSome := hisSome.trans hunique
      flags_range := by rw [hflagsV]; omega
      size_range := by rw [hsizeV]; omega
      block_length := by simp [hsizeV, CRLF] }
  refine ⟨.storage r, ?_, ?_⟩
  · simp only [Request.bytes_storage, StorageRequest.bytes, StorageRequest.header,
      StorageRequest.numbers, r, fieldsBytes_cons, hflagsT, hexpireT, hsizeT, hcasT,
      lineEndBytes_noreply, SimpleClient.store, List.append_assoc, List.cons_append]
  · have hdata : r.value = value := by simp [StorageRequest.value, r, hsizeV]
    simp only [Request.operation, hdata]
    simp only [r, hflagsV, hexpireV, hcasV, isSome_noreply, ClientCall.storage]

omit hU in
theorem exists_keys {keys : List (List UInt8)} (h : ∀ key ∈ keys, IsToken key) :
    ∃ ks : List Key, ks.map Subtype.val = keys :=
  ⟨keys.attachWith _ h, by simp⟩

omit hU in
theorem putKeys_eq (key : Key) (keys : List Key) :
    SimpleClient.putKeys ((key :: keys).map Subtype.val) = key.1 ++ spacedKeys keys := by
  induction keys generalizing key with
  | nil => simp [SimpleClient.putKeys]
  | cons next keys ih =>
    rw [spacedKeys_cons, ← ih]
    rfl

omit hU in
theorem exists_get {cls : CommandClass} (hcls : cls = .GET ∨ cls = .GETS)
    {keys : List (List UInt8)} (hkeys : keys ≠ [] ∧ ∀ key ∈ keys, IsToken key) :
    ∃ r : Request U, r.bytes = SimpleClient.putGet cls.word keys ∧
      r.operation = { cls, keys } := by
  obtain ⟨ks, rfl⟩ := exists_keys hkeys.2
  cases ks with
  | nil => exact absurd rfl hkeys.1
  | cons key ks =>
    let r : RetrievalRequest U :=
      { cls, exptime := none, gap := 0, keys := key :: ks
        isRetrieval := by rcases hcls with rfl | rfl <;> rfl
        exptime_isSome := by rcases hcls with rfl | rfl <;> rfl
        gap_pos := by simp }
    refine ⟨.retrieval r, ?_, rfl⟩
    rw [SimpleClient.putGet, putKeys_eq]
    simp [r, RetrievalRequest.bytes, RetrievalRequest.header, RetrievalRequest.exptimeBytes,
      keysBytes]

theorem exists_gat {cls : CommandClass} (hcls : cls = .GAT ∨ cls = .GATS) (expire : Int64)
    {keys : List (List UInt8)} (hkeys : keys ≠ [] ∧ ∀ key ∈ keys, IsToken key) :
    ∃ r : Request U, r.bytes = SimpleClient.putGat cls.word expire keys ∧
      r.operation = { cls, keys, exptime := expire.toInt } := by
  obtain ⟨n, hT, hV⟩ := exists_long hU expire
  obtain ⟨ks, rfl⟩ := exists_keys hkeys.2
  cases ks with
  | nil => exact absurd rfl hkeys.1
  | cons key ks =>
    let r : RetrievalRequest U :=
      { cls, exptime := some n, gap := 1, keys := key :: ks
        isRetrieval := by rcases hcls with rfl | rfl <;> rfl
        exptime_isSome := by rcases hcls with rfl | rfl <;> rfl
        gap_pos := by simp }
    refine ⟨.retrieval r, ?_, ?_⟩
    · rw [SimpleClient.putGat, putKeys_eq]
      simp [r, RetrievalRequest.bytes, RetrievalRequest.header, RetrievalRequest.exptimeBytes,
        keysBytes, hT]
    · simp only [Request.operation, r, Option.elim_some, hV]

theorem exists_keyNumber {cls : CommandClass} (hcls : cls = .INCR ∨ cls = .DECR ∨ cls = .TOUCH)
    {key : List UInt8} (hkey : IsToken key) (number : Int64) (noreply : Bool) :
    ∃ r : Request U, r.bytes = SimpleClient.putKeyNumber cls.word key number noreply ∧
      r.operation =
        { cls, key, noreply
          value := if cls = .TOUCH then 0 else number.toInt
          exptime := if cls = .TOUCH then number.toInt else 0 } := by
  obtain ⟨n, hT, hV⟩ := exists_long hU number
  let r : KeyNumberRequest U :=
    { cls, key := ⟨key, hkey⟩, number := n, gap := if noreply then some 0 else none
      isKeyNumber := hcls }
  refine ⟨.keyNumber r, ?_, ?_⟩
  · simp only [Request.bytes_keyNumber, KeyNumberRequest.bytes, KeyNumberRequest.header, r,
      fieldsBytes_cons, fieldsBytes_nil, hT, lineEndBytes_noreply, SimpleClient.putKeyNumber,
      List.nil_append, List.append_assoc, List.cons_append]
  · simp only [Request.operation, r, hV, isSome_noreply]

omit hU in
theorem exists_delete {key : List UInt8} (hkey : IsToken key) (noreply : Bool) :
    ∃ r : Request U, r.bytes = SimpleClient.delete key noreply ∧
      r.operation = { cls := .DELETE, key, noreply } := by
  let r : DeleteRequest := { key := ⟨key, hkey⟩, gap := if noreply then some 0 else none }
  refine ⟨.delete r, ?_, ?_⟩
  · simp only [Request.bytes_delete, DeleteRequest.bytes, DeleteRequest.header, r,
      lineEndBytes_noreply, SimpleClient.delete]
  · simp only [Request.operation, r, isSome_noreply]

/-- What the client writes is a request for what the call asks for. -/
theorem exists_request {call : ClientCall} (hcall : call.WellFormed) :
    ∃ r : Request U, r.bytes = call.encode ∧ r.operation = call.operation := by
  cases call with
  | set key value flags expire noreply =>
    exact exists_storage hU rfl hcall.1 hcall.2.2 hcall.2.1 expire noreply rfl
  | add key value flags expire noreply =>
    exact exists_storage hU rfl hcall.1 hcall.2.2 hcall.2.1 expire noreply rfl
  | replace key value flags expire noreply =>
    exact exists_storage hU rfl hcall.1 hcall.2.2 hcall.2.1 expire noreply rfl
  | append key value flags expire noreply =>
    exact exists_storage hU rfl hcall.1 hcall.2.2 hcall.2.1 expire noreply rfl
  | prepend key value flags expire noreply =>
    exact exists_storage hU rfl hcall.1 hcall.2.2 hcall.2.1 expire noreply rfl
  | cas key value flags expire noreply unique =>
    exact exists_storage hU rfl hcall.1 hcall.2.2 hcall.2.1 expire noreply rfl
  | get keys => exact exists_get (.inl rfl) hcall
  | gets keys => exact exists_get (.inr rfl) hcall
  | gat expire keys => exact exists_gat hU (.inl rfl) expire hcall
  | gats expire keys => exact exists_gat hU (.inr rfl) expire hcall
  | delete key noreply => exact exists_delete hcall noreply
  | touch key expire noreply => exact exists_keyNumber hU (by simp) hcall expire noreply
  | incr key value noreply => exact exists_keyNumber hU (by simp) hcall value noreply
  | decr key value noreply => exact exists_keyNumber hU (by simp) hcall value noreply

end Encoders

/-- The server reads back every request of the client, whatever bytes follow it. -/
theorem parse_encode {U : CacheUtils} (hU : ReadsDecimal U) {call : ClientCall}
    (hcall : call.WellFormed) {m : Memory} {buf : Int} {size : Nat} {rest : List UInt8}
    (hslice : m.slice buf size = call.encode ++ rest) :
    ∃ cmd, (CommandParser.parse U buf size).run m = .done cmd ∧
      cmd.operation m = call.operation ∧ cmd.inputConsumed = call.encode.length := by
  obtain ⟨r, hbytes, hoperation⟩ := exists_request hU hcall
  rw [← hbytes] at hslice
  refine ⟨r.command buf, ?_, ?_, ?_⟩
  · rw [Refinement.parse_run, hslice]
    exact r.parse_eq buf rest
  · rw [r.operation_command hslice, hoperation]
  · rw [r.inputConsumed_command, hbytes]

theorem parse_encode_cas :
    let call : ClientCall := .cas (ascii "noreply") (ascii "a\r\nget b\r\n") 7 (-1) true 5
    let m := Memory.ofBytes 100 (call.encode ++ ascii "get c\r\n")
    ∃ cmd, (CommandParser.parse decimalUtils 100 (50 : Nat)).run m = .done cmd ∧
      cmd.operation m = call.operation ∧ cmd.inputConsumed = call.encode.length := by
  intro call m
  have hcall : call.WellFormed := ⟨by decide, by decide, by decide⟩
  have hslice : m.slice 100 50 = call.encode ++ ascii "get c\r\n" := by decide +kernel
  exact parse_encode readsDecimal_decimalUtils hcall hslice

end Memcarrot.Client
