import Memcarrot.Client.Answers
import Memcarrot.Client.RoundTrip
import Memcarrot.Incremental.Calls
import Memcarrot.Server.Requests

open Incremental

namespace Memcarrot

variable {σ : Type}

namespace ClientCall

/-- What calls return that are made one after the other on the store itself. -/
def performAll (support : Memcached σ) : List ClientCall → σ → List CallResult
  | [], _ => []
  | call :: calls, s =>
    (call.perform support s).1 :: performAll support calls (call.perform support s).2

/-- Calls that can be made one after the other: each is well-formed, fits into the buffers of the
client and the server, gets a reply that fits, and what the store answers can be told. -/
inductive Callable (P : Platform) (services : Services σ) (capacity bufferSize : Nat) :
    List ClientCall → σ → Prop where
  | nil (s : σ) : Callable P services capacity bufferSize [] s
  | cons {call : ClientCall} {calls : List ClientCall} {s : σ} {bytes : List UInt8}
      (hcall : call.WellFormed) (hcapacity : call.encode.length ≤ capacity)
      (hsize : call.encode.length ≤ bufferSize)
      (houtcome : (call.operation.execute services bufferSize s).outcome = .response bytes)
      (hfits : bytes.length ≤ bufferSize)
      (hreadable : call.Readable P services.support bufferSize s)
      (hrest : Callable P services capacity bufferSize calls
        (call.perform services.support s).2) :
      Callable P services capacity bufferSize (call :: calls) s

/-- The calls as requests that are executed. -/
def protocol (services : Services σ) (bufferSize : Nat) : Protocol ClientCall UInt8 UInt8 σ where
  items := encode
  serve call s :=
    let run := call.operation.execute services bufferSize s
    match run.outcome with
    | .response bytes =>
      if bytes.length ≤ bufferSize then some (run.chunks.flatten ++ bytes, run.store) else none
    | _ => none

/-- The client as a caller. -/
def caller (P : Platform) (services : Services σ) : Caller ClientCall UInt8 σ CallResult where
  result call s := (call.perform services.support s).1
  mayStop := MayStop
  decode call response :=
    if call.noreply then some .null
    else
      match call.getResponse P services.utils (.received response []) with
      | .ok (result, _) => result
      | .error _ => none

section Callable

variable {P : Platform} {services : Services σ} {capacity bufferSize : Nat} {call : ClientCall}
  {calls done todo : List ClientCall} {s store : σ} {output : List UInt8}

theorem Understood.understands {sent : List UInt8} (hsent : Understood P services.utils call sent
    (call.perform services.support s).1) : (caller P services).Understands call s sent := by
  refine ⟨?_, fun front hfront hne hstop => ?_, ?_⟩
  · intro kind _
    cases kind <;> simp [RequestKind.MayStop]
  · cases hnoreply : call.noreply with
    | true =>
      rw [(hsent.silent hnoreply).1] at hfront hne
      exact absurd (List.prefix_nil.mp hfront) hne
    | false =>
      obtain ⟨next, hwaits, -⟩ :=
        (hsent.reads hnoreply).waits hfront hne hstop (.inl ⟨[], rfl⟩)
      simp [caller, hnoreply, hwaits]
  · cases hnoreply : call.noreply with
    | true => simp [caller, hnoreply, (hsent.silent hnoreply).2]
    | false =>
      obtain ⟨next, hanswers⟩ := (hsent.reads hnoreply).answers []
      simp [caller, hnoreply, hanswers]

variable (hU : Client.ReadsDecimal services.utils)
  (hprint : ∀ value, 0 ≤ value → services.utils.longToStrDirect value = Decimal.toString value)
include hprint

theorem serve_of_callable {bytes : List UInt8}
    (hreadable : call.Readable P services.support bufferSize s)
    (houtcome : (call.operation.execute services bufferSize s).outcome = .response bytes)
    (hfits : bytes.length ≤ bufferSize) :
    ∃ sent, (protocol services bufferSize).serve call s =
        some (sent, (call.perform services.support s).2) ∧
      Understood P services.utils call sent (call.perform services.support s).1 := by
  obtain ⟨hsent, hstore⟩ := understood_of_readable (U := services.utils) hprint hreadable houtcome
  refine ⟨(call.operation.execute services bufferSize s).chunks.flatten ++ bytes, ?_, hsent⟩
  simp only [protocol, houtcome, hfits, if_true, hstore]

include hU

theorem Callable.valid (h : Callable P services capacity bufferSize calls s) :
    (caller P services).Valid (protocol services bufferSize) calls s := by
  induction h with
  | nil s => exact .nil s
  | @cons call calls s bytes hcall _ _ houtcome hfits hreadable _ ih =>
    obtain ⟨sent, hserve, hsent⟩ := serve_of_callable hprint hreadable houtcome hfits
    obtain ⟨r, hbytes, -⟩ := Client.exists_request hU hcall
    have hencode : call.encode ≠ [] := by
      rw [← hbytes]
      exact List.ne_nil_of_length_pos r.length_bytes_pos
    exact .cons hencode hserve hsent.understands ih

omit hU in
theorem Callable.results_eq (h : Callable P services capacity bufferSize calls s) :
    (caller P services).results (protocol services bufferSize) calls s =
      performAll services.support calls s := by
  induction h with
  | nil s => rfl
  | @cons call calls s bytes _ _ _ houtcome hfits hreadable _ ih =>
    obtain ⟨sent, hserve, -⟩ := serve_of_callable hprint hreadable houtcome hfits
    simp only [Caller.results, performAll, hserve, ih]
    rfl

omit hU hprint in
theorem Callable.front (h : Callable P services capacity bufferSize (done ++ todo) s) :
    Callable P services capacity bufferSize done s := by
  induction done generalizing s with
  | nil => exact .nil s
  | cons call done ih =>
    cases h with
    | cons hcall hcapacity hsize houtcome hfits hreadable hrest =>
      exact .cons hcall hcapacity hsize houtcome hfits hreadable (ih hrest)

omit hU in
/-- The next call, in the state after those before it. -/
theorem Callable.next (h : Callable P services capacity bufferSize (done ++ call :: todo) s)
    (hdone : (protocol services bufferSize).serveAll done s = some (output, store)) :
    call.encode.length ≤ capacity ∧
      ∃ sent, (protocol services bufferSize).serve call store =
          some (sent, (call.perform services.support store).2) ∧
        Understood P services.utils call sent (call.perform services.support store).1 := by
  induction done generalizing s output with
  | nil =>
    cases hdone
    cases h with
    | cons _ hcapacity _ houtcome hfits hreadable _ =>
      exact ⟨hcapacity, serve_of_callable hprint hreadable houtcome hfits⟩
  | cons first done ih =>
    cases h with
    | cons _ _ _ houtcome hfits hreadable hrest =>
      obtain ⟨sent, hserve, -⟩ := serve_of_callable hprint hreadable houtcome hfits
      simp only [Protocol.serveAll, hserve, Option.bind_eq_bind, Option.bind_some,
        Option.bind_eq_some_iff] at hdone
      obtain ⟨⟨rest, last⟩, hall, hresult⟩ := hdone
      cases hresult
      exact ih hrest hall

omit hprint in
/-- The requests that the client writes for calls. -/
theorem Callable.exists_requests (h : Callable P services capacity bufferSize calls s) :
    ∃ requests : List (Wire.Request services.utils),
      List.Forall₂ ((CommandProcessor.protocol services bufferSize 1).Same
        (protocol services bufferSize)) requests calls ∧
      ∀ r ∈ requests, r.SingleSpaced ∧ r.bytes.length ≤ bufferSize := by
  induction h with
  | nil s => exact ⟨[], .nil, by simp⟩
  | @cons call calls s bytes hcall _ hsize _ _ _ _ ih =>
    obtain ⟨r, hbytes, hoperation⟩ := Client.exists_request hU hcall
    obtain ⟨requests, hsame, hrequests⟩ := ih
    refine ⟨r :: requests, .cons ⟨hbytes, ?_⟩ hsame, ?_⟩
    · funext s
      refine Option.ext fun ⟨out, store⟩ => ?_
      have hptr : (0 : Int) < 1 := by decide
      refine (CommandProcessor.feed_eq_some_iff hptr).trans ?_
      rw [hoperation]
      simp only [protocol]
      cases (call.operation.execute services bufferSize s).outcome with
      | response bytes =>
        simp only [Outcome.response.injEq, exists_eq_left', Option.ite_none_right_eq_some,
          Option.some.injEq, Prod.mk.injEq]
        exact and_congr_right fun _ => and_congr eq_comm eq_comm
      | bufferOverflow | exit => simp
    · simp only [List.mem_cons, forall_eq_or_imp]
      refine ⟨⟨?_, hbytes ▸ hsize⟩, hrequests⟩
      cases r with
      | flushAll r =>
        have hcls := congrArg Operation.cls hoperation
        cases call <;> cases hcls
      | _ => trivial

end Callable

end ClientCall

end Memcarrot
