import Memcarrot.Client.Responses
import Memcarrot.Client.SimpleClient

namespace Memcarrot

namespace ByteBuffer

/-- `clear()` -/
def clear (buf : ByteBuffer) : ByteBuffer where
  bytes := buf.bytes
  position := 0
  limit := buf.bytes.length
  position_le := Nat.zero_le _
  limit_le := Nat.le_refl _

/-- `put(src)`, and what a read of a channel does, if there is room for the bytes. -/
def put (src : List UInt8) (buf : ByteBuffer) : Option ByteBuffer :=
  if h : buf.position + src.length ≤ buf.limit then
    some {
      bytes := buf.bytes.take buf.position ++ (src ++ buf.bytes.drop (buf.position + src.length))
      position := buf.position + src.length
      limit := buf.limit
      position_le := h
      limit_le := by
        have hlimit := buf.limit_le
        simp only [List.length_append, List.length_take, List.length_drop]
        omega }
  else none

section Rules

variable {buf next : ByteBuffer} {src : List UInt8}

theorem length_put (h : buf.put src = some next) : next.bytes.length = buf.bytes.length := by
  unfold put at h
  split_ifs at h with hroom
  cases h
  have hlimit := buf.limit_le
  simp only [List.length_append, List.length_take, List.length_drop]
  omega

/-- What has been put into the buffer stands before its position. -/
theorem take_put (h : buf.put src = some next) :
    next.position = buf.position + src.length ∧
      next.bytes.take next.position = buf.bytes.take buf.position ++ src := by
  unfold put at h
  split_ifs at h with hroom
  cases h
  have hle : buf.position ≤ buf.bytes.length := buf.position_le.trans buf.limit_le
  have hlength : (buf.bytes.take buf.position ++ src).length = buf.position + src.length := by
    simp only [List.length_append, List.length_take, Nat.min_eq_left hle]
  refine ⟨rfl, ?_⟩
  simp only
  rw [← List.append_assoc, List.take_left' hlength]

theorem put_nil (buf : ByteBuffer) : buf.put [] = some buf := by
  have hroom : buf.position + ([] : List UInt8).length ≤ buf.limit := buf.position_le
  rw [put, dif_pos hroom]
  simp

/-- What is put into the buffer goes behind what was put there before. -/
theorem put_received {bytes stale : List UInt8} (h : (received bytes stale).put src = some next) :
    next = received (bytes ++ src) (stale.drop src.length) := by
  unfold put at h
  split_ifs at h with hroom
  cases h
  simp only [received, List.length_append] at hroom
  simp only [received, mk.injEq, List.length_append, List.length_drop]
  refine ⟨?_, trivial, by omega⟩
  rw [List.take_left' rfl, List.drop_append, List.drop_of_length_le (by omega), List.nil_append,
    Nat.add_sub_cancel_left, List.append_assoc]

theorem clear_eq_received (buf : ByteBuffer) : buf.clear = received [] buf.bytes := rfl

/-- There is room for a request in a cleared buffer. -/
theorem put_clear (hroom : src.length ≤ buf.bytes.length) :
    buf.clear.put src = some (received src (buf.bytes.drop src.length)) := by
  have hput : ∃ next, (received [] buf.bytes).put src = some next :=
    ⟨_, dif_pos (by simpa [received] using hroom)⟩
  obtain ⟨next, hput⟩ := hput
  rw [clear_eq_received, hput, put_received hput, List.nil_append]

end Rules

end ByteBuffer

deriving instance DecidableEq for ClientCall

/-- What a call returns: null under noreply, what the method for a response of one line returns, or
the records. -/
inductive CallResult where
  | null
  | answer (answer : Answer)
  | records (records : List SimpleClient.GetResult)
  deriving DecidableEq, Repr

namespace ClientCall

def noreply : ClientCall → Bool
  | set _ _ _ _ noreply | add _ _ _ _ noreply | replace _ _ _ _ noreply | append _ _ _ _ noreply
  | prepend _ _ _ _ noreply | cas _ _ _ _ noreply _ | delete _ noreply | touch _ _ noreply
  | incr _ _ noreply | decr _ _ noreply => noreply
  | get _ | gets _ | gat _ _ | gats _ _ => false

/-- The method that is called after each read until it does not return null. -/
def getResponse (P : Platform) (U : CacheUtils) (call : ClientCall) : Decoder (Option CallResult) :=
  let line (decoder : Decoder (Option Answer)) : Decoder (Option CallResult) := fun buf => do
    let (response, buf) ← decoder buf
    return (response.map .answer, buf)
  let lines (cas : Bool) : Decoder (Option CallResult) := fun buf => do
    let (result, buf) ← SimpleClient.getRetrievalResponse P U cas buf
    return (result.map .records, buf)
  match call with
  | set .. | add .. | replace .. | append .. | prepend .. | cas .. =>
    line (SimpleClient.getStorageResponse P)
  | get _ | gat _ _ => lines false
  | gets _ | gats _ _ => lines true
  | delete .. => line (SimpleClient.getDeleteResponse P)
  | touch .. => line (SimpleClient.getTouchResponse P)
  | incr .. | decr .. => line (SimpleClient.getIncrDecrResponse P)

end ClientCall

/-- How a call fails: the request is larger than the buffer, or a method for a response throws. -/
inductive CallFailure where
  | bufferOverflow
  | response (e : ClientException)
  deriving DecidableEq, Repr

/-- Where the client stands: between two calls, in the loop that writes a request, in the loop that
reads a response, or at a call that has failed. -/
inductive Calling where
  | idle
  | writing (call : ClientCall)
  | reading (call : ClientCall)
  | failed (failure : CallFailure)
  deriving DecidableEq

/-- The call that is being made. -/
def Calling.call : Calling → Option ClientCall
  | writing call | reading call => some call
  | idle | failed _ => none

/-- A client that makes calls one after the other, with what they have returned. -/
structure SimpleClient where
  buf : ByteBuffer
  todo : List ClientCall
  calling : Calling := .idle
  returned : List CallResult := []

namespace SimpleClient

/-- A client with a buffer of some capacity. -/
def start (capacity : Nat) (calls : List ClientCall) : SimpleClient where
  buf := .received [] (List.replicate capacity 0)
  todo := calls

/-- A call puts its request into the buffer. -/
def begin (client : SimpleClient) : Option SimpleClient :=
  match client.calling, client.todo with
  | .idle, call :: todo =>
    match client.buf.clear.put call.encode with
    | some buf => some { client with buf := buf.flip, todo, calling := .writing call }
    | none => some { client with todo, calling := .failed .bufferOverflow }
  | _, _ => none

/-- A round of the loop that writes, in which the channel takes as many bytes, or all that are
left. -/
def write (count : Nat) (client : SimpleClient) : Option (List UInt8 × SimpleClient) :=
  match client.calling with
  | .writing _ =>
    match client.buf.getBytes (min count client.buf.remaining.length) with
    | .ok (bytes, buf) =>
      if client.buf.remaining = [] then none else some (bytes, { client with buf })
    | .error _ => none
  | _ => none

/-- The end of that loop. -/
def written (client : SimpleClient) : Option SimpleClient :=
  match client.calling with
  | .writing call =>
    if client.buf.remaining = [] then
      let client := { client with buf := client.buf.clear }
      if call.noreply then
        some { client with calling := .idle, returned := client.returned ++ [.null] }
      else some { client with calling := .reading call }
    else none
  | _ => none

/-- A round of the loop that reads, in which there are as many bytes, if there is room for them. -/
def read (P : Platform) (U : CacheUtils) (bytes : List UInt8) (client : SimpleClient) :
    Option SimpleClient :=
  match client.calling with
  | .reading call =>
    (client.buf.put bytes).map fun buf =>
      match call.getResponse P U buf with
      | .ok (none, buf) => { client with buf }
      | .ok (some result, buf) =>
        { client with buf, calling := .idle, returned := client.returned ++ [result] }
      | .error e => { client with buf, calling := .failed (.response e) }
  | _ => none

end SimpleClient

end Memcarrot
