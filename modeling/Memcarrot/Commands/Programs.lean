import Memcarrot.Commands.Execute
import Memcarrot.Support.StoreCalls

open Interaction

namespace Memcarrot

/-- What `execute` comes to: what the consumer was given, and the end. -/
abbrev Answered := List (List UInt8) × Outcome

/-- A response that is left out under noreply. -/
def answer (noreply : Bool) (response : List UInt8) : StoreProgram Answered :=
  .done ([], .response (if noreply then [] else response))

def StorageCommand.program (call : StoreProgram OpResult) (op : Operation) :
    StoreProgram Answered :=
  call.bind fun result => answer op.noreply (if result = .NOT_STORED then NOT_STORED else STORED)

def CAS.program (op : Operation) : StoreProgram Answered :=
  .call (.cas op.key op.data (FLUSH_ALL.toInt op.flags) op.exptime op.cas) fun result =>
    answer op.noreply
      (match result with
      | .EXISTS => EXISTS
      | .NOT_FOUND => NOT_FOUND
      | .NOT_STORED => NOT_STORED
      | _ => STORED)

namespace RetrievalCommand

def roundProgram (fetch : List UInt8 → StoreProgram Record)
    (write : Record → List UInt8 → List UInt8) (outBufferSize : Int) (key : List UInt8)
    (outSize : Nat) : StoreProgram Round :=
  (fetch key).map fun r =>
    if r.value = none then .absent
    else if ((write r key).length : Int) > outBufferSize - outSize - 5 then .full
    else .written (write r key)

/-- The loop over the keys, as the calls it makes. -/
def loopProgram (fetch : List UInt8 → StoreProgram Record)
    (write : Record → List UInt8 → List UInt8) (outBufferSize : Int) :
    List (List UInt8) → List UInt8 → StoreProgram Answered
  | [], out => .done ([], .response (out ++ END))
  | key :: keys, out =>
    (roundProgram fetch write outBufferSize key out.length).bind fun
      | .absent => loopProgram fetch write outBufferSize keys out
      | .written bytes => loopProgram fetch write outBufferSize keys (out ++ bytes)
      | .full =>
        if out.length > 0 then
          (roundProgram fetch write outBufferSize key 0).bind fun
            | .absent =>
              (loopProgram fetch write outBufferSize keys []).map fun rest =>
                (out :: rest.1, rest.2)
            | .written bytes =>
              (loopProgram fetch write outBufferSize keys bytes).map fun rest =>
                (out :: rest.1, rest.2)
            | .full => .done ([out], .bufferOverflow)
        else .done ([], .bufferOverflow)

end RetrievalCommand

def INCR.program (U : CacheUtils) (call : StoreProgram Counted) (op : Operation) :
    StoreProgram Answered :=
  call.bind fun
    | .value result =>
      answer op.noreply (if result ≥ 0 then U.longToStrDirect result ++ CRLF else NOT_FOUND)
    | .numberFormat => answer op.noreply (ascii "CLIENT_ERROR number format error\r\n")
    | .illegalArgument msg => answer op.noreply (ascii "CLIENT_ERROR " ++ msg ++ CRLF)

def STATS.lines (stats : List (List UInt8 × List UInt8)) : List UInt8 :=
  stats.flatMap fun (name, value) => ascii "STAT " ++ name ++ SP :: value ++ CRLF

/-- The execute method of each class, as the calls of the store it makes one after the other. -/
def Operation.program {σ : Type} (services : Services σ) (outBufferSize : Int) (op : Operation) :
    StoreProgram Answered :=
  let flags := FLUSH_ALL.toInt op.flags
  let retrieve (fetch : List UInt8 → StoreProgram Record) :=
    RetrievalCommand.loopProgram fetch (fun r key => services.support.write r key op.cls.isCAS)
      outBufferSize op.keys []
  match op.cls with
  | .SET => StorageCommand.program (.call (.set op.key op.data flags op.exptime) .done) op
  | .ADD => StorageCommand.program (.call (.add op.key op.data flags op.exptime) .done) op
  | .REPLACE => StorageCommand.program (.call (.replace op.key op.data flags op.exptime) .done) op
  | .APPEND => StorageCommand.program (.call (.append op.key op.data flags op.exptime) .done) op
  | .PREPEND => StorageCommand.program (.call (.prepend op.key op.data flags op.exptime) .done) op
  | .CAS => CAS.program op
  | .GET => retrieve fun key => .call (.get key) .done
  | .GETS => retrieve fun key => .call (.gets key) .done
  | .GAT => retrieve fun key => .call (.gat key op.exptime) .done
  | .GATS => retrieve fun key => .call (.gats key op.exptime) .done
  | .INCR => INCR.program services.utils (.call (.incr op.key op.value) .done) op
  | .DECR => INCR.program services.utils (.call (.decr op.key op.value) .done) op
  | .TOUCH => .call (.touch op.key op.exptime) fun (result : Int) =>
      answer op.noreply (if result ≥ 0 then TOUCHED else NOT_FOUND)
  | .DELETE => .call (.delete op.key) fun (result : OpResult) =>
      answer op.noreply (if result = .DELETED then DELETED else NOT_FOUND)
  | .FLUSH_ALL => .call (.flushAll op.delay) fun _ => answer op.noreply (ascii "OK\r\n")
  | .VERSION =>
    answer false (ascii "VERSION " ++ services.version.getD (ascii "unknown") ++ CRLF)
  | .STATS => .call .stats fun stats => answer false (STATS.lines stats ++ END)
  | .SHUTDOWN => .call .shutdown fun
      | none => .done ([], .exit)
      | some msg => answer false (ascii "SERVER_ERROR " ++ msg ++ CRLF)
  | .QUIT | .SAVE | .BGSAVE => answer true []

section Runs

variable {σ : Type} {services : Services σ} {op : Operation} {s : σ}

/-- The loop over the keys makes its calls one after the other. -/
theorem RetrievalCommand.executeLoop_eq_run {object : Object storeInterface σ}
    {fetch : List UInt8 → σ → Record × σ} {program : List UInt8 → StoreProgram Record}
    (hfetch : ∀ key s, (program key).run object s = fetch key s)
    (write : Record → List UInt8 → List UInt8) (outBufferSize : Int) (keys : List (List UInt8))
    (out : List UInt8) (s : σ) :
    executeLoop fetch write outBufferSize keys out s =
      ⟨((loopProgram program write outBufferSize keys out).run object s).2,
        ((loopProgram program write outBufferSize keys out).run object s).1.1,
        ((loopProgram program write outBufferSize keys out).run object s).1.2⟩ := by
  have hround (key : List UInt8) (outSize : Nat) (s : σ) :
      (roundProgram program write outBufferSize key outSize).run object s =
        round fetch write outBufferSize key outSize s := by
    unfold roundProgram round
    rw [Program.run_map, hfetch]
    simp only
    split_ifs <;> rfl
  induction keys generalizing out s with
  | nil => rfl
  | cons key keys ih =>
    unfold executeLoop loopProgram
    rw [Program.run_bind, hround]
    cases hfirst : round fetch write outBufferSize key out.length s with
    | mk first s =>
      cases first with
      | absent => exact ih out s
      | written bytes => exact ih (out ++ bytes) s
      | full =>
        simp only
        by_cases hout : out.length > 0
        · rw [if_pos hout, if_pos hout, Program.run_bind, hround]
          cases hagain : round fetch write outBufferSize key 0 s with
          | mk again s =>
            cases again with
            | absent | written =>
              simp only [Program.run_map]
              rw [ih]
            | full => rfl
        · rw [if_neg hout, if_neg hout]
          rfl

theorem CAS.execute_eq_run (support : Memcached σ) :
    CAS.execute support op s =
      ⟨((CAS.program op).run support.object s).2, ((CAS.program op).run support.object s).1.1,
        ((CAS.program op).run support.object s).1.2⟩ := by
  unfold CAS.execute CAS.program
  rw [Program.run_call]
  simp only [Memcached.object]
  cases (support.cas op.key op.data (FLUSH_ALL.toInt op.flags) op.exptime op.cas s).1 <;> rfl

theorem INCR.execute_eq_run {U : CacheUtils} {object : Object storeInterface σ}
    {count : List UInt8 → Int → σ → Counted × σ} {call : StoreProgram Counted}
    (hcount : call.run object s = count op.key op.value s) :
    INCR.execute U count op s =
      ⟨((INCR.program U call op).run object s).2, ((INCR.program U call op).run object s).1.1,
        ((INCR.program U call op).run object s).1.2⟩ := by
  unfold INCR.execute INCR.program
  rw [Program.run_bind, hcount]
  simp only
  cases (count op.key op.value s).1 <;> rfl

theorem SHUTDOWN.execute_eq_run (support : Memcached σ) {program : StoreProgram Answered}
    (hprogram : program = .call .shutdown fun
      | none => .done ([], .exit)
      | some msg => answer false (ascii "SERVER_ERROR " ++ msg ++ CRLF)) :
    SHUTDOWN.execute support s =
      ⟨(program.run support.object s).2, (program.run support.object s).1.1,
        (program.run support.object s).1.2⟩ := by
  subst hprogram
  unfold SHUTDOWN.execute
  rw [Program.run_call]
  simp only [Memcached.object]
  cases support.shutdown s <;> rfl

/-- What a command does are its calls, one after the other. -/
theorem Operation.execute_eq_run (services : Services σ) (outBufferSize : Int) (op : Operation)
    (s : σ) : op.execute services outBufferSize s =
      ⟨((op.program services outBufferSize).run services.support.object s).2,
        ((op.program services outBufferSize).run services.support.object s).1.1,
        ((op.program services outBufferSize).run services.support.object s).1.2⟩ := by
  unfold execute program
  cases hcls : op.cls with
  | SET | ADD | REPLACE | APPEND | PREPEND => rfl
  | CAS => exact CAS.execute_eq_run services.support
  | GET | GETS | GAT | GATS =>
    simp only [RetrievalCommand.execute, hcls]
    apply RetrievalCommand.executeLoop_eq_run
    exact fun _ _ => rfl
  | INCR | DECR => exact INCR.execute_eq_run rfl
  | TOUCH | DELETE | FLUSH_ALL | VERSION | STATS => rfl
  | SHUTDOWN => exact SHUTDOWN.execute_eq_run services.support rfl
  | QUIT | SAVE | BGSAVE => rfl

end Runs

section Told

/-- The commands other than stats and shutdown. -/
def Operation.Plain (op : Operation) : Prop := op.cls ≠ .STATS ∧ op.cls ≠ .SHUTDOWN

theorem RetrievalCommand.uses_roundProgram {fetch : List UInt8 → StoreProgram Record}
    (hfetch : ∀ key, (fetch key).Uses StoreCall.Told) (write : Record → List UInt8 → List UInt8)
    (outBufferSize : Int) (key : List UInt8) (outSize : Nat) :
    (roundProgram fetch write outBufferSize key outSize).Uses StoreCall.Told :=
  (hfetch key).map _

theorem RetrievalCommand.uses_loopProgram {fetch : List UInt8 → StoreProgram Record}
    (hfetch : ∀ key, (fetch key).Uses StoreCall.Told) (write : Record → List UInt8 → List UInt8)
    (outBufferSize : Int) (keys : List (List UInt8)) (out : List UInt8) :
    (loopProgram fetch write outBufferSize keys out).Uses StoreCall.Told := by
  have hround := uses_roundProgram hfetch write outBufferSize
  induction keys generalizing out with
  | nil => trivial
  | cons key keys ih =>
    refine (hround key out.length).bind fun first => ?_
    cases first with
    | absent => exact ih out
    | written bytes => exact ih (out ++ bytes)
    | full =>
      simp only
      split
      · refine (hround key 0).bind fun again => ?_
        cases again with
        | absent => exact (ih []).map _
        | written bytes => exact (ih bytes).map _
        | full => trivial
      · trivial

theorem INCR.uses_program (U : CacheUtils) {call : StoreProgram Counted}
    (hcall : call.Uses StoreCall.Told) (op : Operation) :
    (INCR.program U call op).Uses StoreCall.Told := by
  refine hcall.bind fun counted => ?_
  cases counted <;> trivial

theorem Operation.uses_program {σ : Type} (services : Services σ) (outBufferSize : Int)
    {op : Operation} (h : op.Plain) :
    (op.program services outBufferSize).Uses StoreCall.Told := by
  obtain ⟨hstats, hshutdown⟩ := h
  unfold program
  cases hcls : op.cls with
  | STATS => exact absurd hcls hstats
  | SHUTDOWN => exact absurd hcls hshutdown
  | SET | ADD | REPLACE | APPEND | PREPEND => exact ⟨trivial, fun _ => trivial⟩
  | CAS | TOUCH | DELETE | FLUSH_ALL => exact ⟨trivial, fun _ => trivial⟩
  | GET | GETS | GAT | GATS =>
    apply RetrievalCommand.uses_loopProgram
    exact fun _ => ⟨trivial, fun _ => trivial⟩
  | INCR | DECR =>
    apply INCR.uses_program
    exact ⟨trivial, fun _ => trivial⟩
  | VERSION | QUIT | SAVE | BGSAVE => trivial

end Told

end Memcarrot
