import Memcarrot.Client.Conversation
import Memcarrot.Server.Interleaving

open Incremental Interaction Relation Transition

namespace Memcarrot

variable {κ σ τ : Type} {n : Nat}

/-- A client and the server that its connection goes to, among others, with all that the client has
sent and read. -/
structure SharedServer (κ σ : Type) (n : Nat) where
  client : SimpleClient
  server : MemcarrotServer κ σ n
  sent : List UInt8 := []
  fetched : List UInt8 := []

namespace SharedServer

/-- A client with calls to make, and a server with a store. -/
def start (capacity : Nat) (calls : List ClientCall) (s : σ) : SharedServer κ σ n where
  client := .start capacity calls
  server := .start s

/-- The client begins a call, writes of its request, comes to the end of it, or reads of the
response, or something happens to the server. -/
inductive Event (κ : Type) (n : Nat) where
  | begin
  | write (count : Nat)
  | written
  | read (bytes : List UInt8)
  | server (e : MemcarrotServer.Event κ n)

variable [DecidableEq κ]

/-- The state after an event, if it is possible: on the connection with the client nothing is read
that was not written before. -/
def step (P : Platform) (services : Services σ) (bufferSize : Nat) (key : κ)
    (st : SharedServer κ σ n) : Event κ n → Option (SharedServer κ σ n)
  | .begin => st.client.begin.map fun client => { st with client }
  | .write count =>
    (st.client.write count).map fun (bytes, client) => { st with client, sent := st.sent ++ bytes }
  | .written => st.client.written.map fun client => { st with client }
  | .read bytes =>
    if st.fetched ++ bytes <+: (st.server.task key).thread.written then
      (st.client.read P services.utils bytes).map fun client =>
        { st with client, fetched := st.fetched ++ bytes }
    else none
  | .server e =>
    match st.server.step services bufferSize e with
    | some server =>
      if (server.task key).thread.received <+: st.sent then some { st with server } else none
    | none => none

/-- The reads of the client stop where the method for the response can tell that it is not all
there. -/
def StopsWell (st : SharedServer κ σ n) : Event κ n → Prop
  | .read bytes =>
    ∀ call, st.client.calling = .reading call →
      call.MayStop (st.client.buf.bytes.take st.client.buf.position ++ bytes)
  | _ => True

/-- The client with the thread that works for its connection, on another store. -/
def conversation (st : SharedServer κ σ n) (key : κ) (s : τ) : Conversation τ where
  client := st.client
  thread := (st.server.task key).thread.withStore s
  sent := st.sent
  fetched := st.fetched

end SharedServer

section Connection

variable [DecidableEq κ] {services : Services σ} {bufferSize : Nat} {met : Nat → σ} {s : σ}
  {t : Task σ} {calls : List (σ × σ)}

theorem Task.Follows.exists_runsAlone (h : Follows services bufferSize met t calls) :
    ∃ before, RunsAlone services bufferSize met (t.thread.withStore ⟨met, before⟩) := by
  cases h with
  | between hrun => exact ⟨_, hrun⟩
  | executing hrun => exact ⟨_, hrun⟩

theorem MemcarrotServer.task_start (s : σ) (key : κ) :
    (start s : MemcarrotServer κ σ n).task key = { thread := { store := s } } := by
  have hshows := (start s : MemcarrotServer κ σ n).shows_task key
  generalize (start s : MemcarrotServer κ σ n).task key = t at hshows
  cases hshows with
  | worker hworker => rfl
  | released hnone => rfl

end Connection

namespace SharedServer

open ClientCall CommandProcessor Conversation

variable [DecidableEq κ] {P : Platform} {services : Services σ} {capacity bufferSize : Nat}
  {calls : List ClientCall} {key : κ} {s : σ} {st : SharedServer κ σ n} {met : Nat → σ}

theorem runs_server {allowed : SharedServer κ σ n → Event κ n → Prop}
    (hrun : Runs (step P services bufferSize key) allowed (start capacity calls s) st) :
    Runs (MemcarrotServer.step services bufferSize) (fun _ _ => True) (.start s) st.server := by
  induction hrun with
  | refl => exact .refl
  | tail _ hlast ih =>
    obtain ⟨e, -, hstep⟩ := hlast
    cases e with
    | begin | write count | written =>
      obtain ⟨_, -, rfl⟩ := Option.map_eq_some_iff.mp hstep
      exact ih
    | read bytes =>
      obtain ⟨_, -, rfl⟩ :=
        Option.map_eq_some_iff.mp (Option.ite_none_right_eq_some.mp hstep).2
      exact ih
    | server e =>
      simp only [step] at hstep
      split at hstep
      · rename_i server hserver
        rw [Option.ite_none_right_eq_some, Option.some.injEq] at hstep
        obtain ⟨-, rfl⟩ := hstep
        exact ih.tail ⟨e, trivial, hserver⟩
      · cases hstep

section Steps

variable {x : Exchange ClientCall UInt8 UInt8 CallResult} {done : List ClientCall}
  {output : List UInt8} {store : Replay σ}
  (hU : Client.ReadsDecimal services.utils)
  (hprint : ∀ value, 0 ≤ value → services.utils.longToStrDirect value = Decimal.toString value)
  (hbuffer : 0 < bufferSize)
  (hcallable : Callable P services.replay capacity bufferSize calls { met })
include hU hprint hbuffer hcallable

/-- What happens to the server is for the client that the thread of its connection goes on, or
nothing. -/
theorem exists_served {r : Replay σ}
    (hsound : Exchange.Sound (caller P services.replay) (protocol services.replay bufferSize) calls
      { met } x done output store)
    (h : Represents P services.replay capacity bufferSize { met } (st.conversation key r) x)
    (hprojects : st.server.Projects services bufferSize s
      fun _ => ({ thread := { store := s } }, []))
    {e : MemcarrotServer.Event κ n} {server : MemcarrotServer κ σ n}
    (hstep : st.server.step services bufferSize e = some server)
    (hreceived : (server.task key).thread.received <+: st.sent)
    (htells : Replay.Tells met (callsOf key server.calls)) :
    ∃ x' r', ReflTransGen (Exchange.Step (caller P services.replay)
        (protocol services.replay bufferSize) calls { met }) x x' ∧
      Represents P services.replay capacity bufferSize { met }
        (conversation { st with server } key r') x' := by
  obtain ⟨requests, result, hsame, hserved⟩ := hcallable.exists_served hU hprint hbuffer
  have hfront : (server.task key).thread.received <+:
      (CommandProcessor.protocol services.replay bufferSize 1).stream requests := by
    rw [Protocol.stream_eq_of_same hsame]
    have hsent : x.sent = st.sent := h.sent
    exact hreceived.trans (hsent ▸ hsound.sent_le)
  have hlocal := (hprojects.step hstep).runs (server.shows_task key)
  have hsteps : Task.Step services bufferSize (key ∈ server.thrown) ≤
      Task.Step services bufferSize True := fun _ _ hstep => Task.Step.mono hstep fun _ => trivial
  obtain ⟨hfollows, -⟩ :=
    follows_of_requests hserved (ReflTransGen.mono hsteps _ _ hlocal) hfront htells
  obtain ⟨before, hruns⟩ := hfollows.exists_runsAlone
  have hextends := Task.extends_of_steps (hprojects.moves hstep key)
  obtain ⟨x', hexchange, h'⟩ := h.serve hsound hcallable hU hprint hbuffer hruns hextends.written
    hreceived
  exact ⟨x', _, hexchange, h'⟩

/-- The client and the thread that works for its connection are an exchange of requests and
responses, on the store as it is told to this connection. -/
theorem exists_exchange
    (hrun : Runs (step P services bufferSize key) StopsWell (start capacity calls s) st)
    (htells : Replay.Tells met (callsOf key st.server.calls)) :
    ∃ x r, ReflTransGen (Exchange.Step (caller P services.replay)
        (protocol services.replay bufferSize) calls { met }) { todo := calls } x ∧
      Represents P services.replay capacity bufferSize { met } (st.conversation key r) x := by
  have hvalid : (caller P services.replay).Valid (protocol services.replay bufferSize) calls
      { met } := hcallable.valid hU hprint
  induction hrun with
  | refl =>
    refine ⟨_, { met }, .refl, ⟨rfl, rfl, rfl, rfl, rfl, ?_, ?_, ?_, ?_⟩⟩
    all_goals simp only [conversation, start, MemcarrotServer.task_start]
    · rfl
    · rfl
    · exact .refl
    · simp [SimpleClient.start, ByteBuffer.received]
  | @tail st next hbefore hlast ih =>
    obtain ⟨e, hstop, hstep⟩ := hlast
    cases e with
    | begin =>
      obtain ⟨client, hbegin, rfl⟩ := Option.map_eq_some_iff.mp hstep
      obtain ⟨x, r, hexchange, h⟩ := ih htells
      obtain ⟨done, output, store, hsound⟩ := Exchange.sound_of_run hvalid hexchange
      obtain ⟨x', hsteps, h'⟩ := h.begin hsound hcallable hprint hbegin
      exact ⟨x', r, hexchange.trans hsteps, h'⟩
    | write count =>
      obtain ⟨⟨bytes, client⟩, hwrite, rfl⟩ := Option.map_eq_some_iff.mp hstep
      obtain ⟨x, r, hexchange, h⟩ := ih htells
      obtain ⟨x', hsteps, h'⟩ := h.write hwrite
      exact ⟨x', r, hexchange.trans hsteps, h'⟩
    | written =>
      obtain ⟨client, hwritten, rfl⟩ := Option.map_eq_some_iff.mp hstep
      obtain ⟨x, r, hexchange, h⟩ := ih htells
      obtain ⟨x', hsteps, h'⟩ := h.written hwritten
      exact ⟨x', r, hexchange.trans hsteps, h'⟩
    | read bytes =>
      simp only [step, Option.ite_none_right_eq_some] at hstep
      obtain ⟨hpiece, hstep⟩ := hstep
      obtain ⟨client, hread, rfl⟩ := Option.map_eq_some_iff.mp hstep
      obtain ⟨x, r, hexchange, h⟩ := ih htells
      obtain ⟨done, output, store, hsound⟩ := Exchange.sound_of_run hvalid hexchange
      obtain ⟨x', hsteps, h'⟩ := h.read hsound hcallable hU hprint hpiece hstop hread
      exact ⟨x', r, hexchange.trans hsteps, h'⟩
    | server e =>
      simp only [step] at hstep
      split at hstep
      · rename_i server hserver
        rw [Option.ite_none_right_eq_some, Option.some.injEq] at hstep
        obtain ⟨hreceived, rfl⟩ := hstep
        have hprojects := MemcarrotServer.projects_of_runs (runs_server hbefore)
        obtain ⟨more, hmore⟩ : callsOf key st.server.calls <+: callsOf key server.calls :=
          (Task.extends_of_steps (hprojects.moves hserver key)).calls
        obtain ⟨x, r, hexchange, h⟩ := ih (Replay.Tells.of_append (hmore ▸ htells))
        obtain ⟨done, output, store, hsound⟩ := Exchange.sound_of_run hvalid hexchange
        obtain ⟨x', r', hsteps, h'⟩ := exists_served hU hprint hbuffer hcallable hsound h hprojects
          hserver hreceived htells
        exact ⟨x', r', hexchange.trans hsteps, h'⟩
      · cases hstep

end Steps

/-- Two calls that count up, and a store with a counter. -/
def counting : List ClientCall := [.incr (ascii "k") 2 false, .incr (ascii "k") 1 false]

def counter (value : List UInt8) (cas : Int) : ListStore :=
  { items := [(ascii "k", { value := some value, cas })], lastCas := cas }

/-- The second call finds that somebody else has counted up, too. -/
def counters : Nat → ListStore
  | 0 => counter (ascii "5") 0
  | _ => counter (ascii "17") 2

theorem callable_counting :
    Callable .iso88591 listServices.replay 64 64 counting { met := counters } := by
  have hkey : Wire.IsToken (ascii "k") := by decide
  refine .cons hkey (by decide +kernel) (by decide +kernel)
    (?first : _ = Outcome.response (ascii "7\r\n")) (by decide)
    (.inl (show (0 : Int) ≤ 7 ∧ (7 : Int) < 2 ^ 63 by decide))
    (.cons hkey (by decide +kernel) (by decide +kernel)
      (?second : _ = Outcome.response (ascii "18\r\n")) (by decide)
      (.inl (show (0 : Int) ≤ 18 ∧ (18 : Int) < 2 ^ 63 by decide)) (.nil _))
  case first | second => decide +kernel

/-- The worker of another connection counts up between the two calls. -/
def countingEvents : List (Event Nat 2) :=
  let selector (rounds : Nat) : List (Event Nat 2) := List.replicate rounds (.server .selector)
  let worker (i : Fin 2) : Event Nat 2 := .server (.worker i (fun _ => 0) 1)
  [.server (.select 7)] ++ selector 5 ++ [worker 0, .server (.select 8)] ++ selector 6 ++
    [worker 1, .begin, .write 3, .write 100, .written, .server (.read 0 (ascii "incr k 10\r\n")),
      .server (.read 1 (ascii "incr k")), .server (.work 0), .server (.work 1),
      .server (.read 1 (ascii " 2\r\n")), .server (.work 1), .server (.work 1), .server (.work 0),
      .server (.work 1), .read (ascii "7"), .read (ascii "\r\n"), .server (.work 1),
      .server (.finish 1), worker 1, worker 1, worker 1, .server (.select 8)] ++ selector 6 ++
    [worker 1, .begin, .write 100, .written, .server (.read 1 (ascii "incr k 1\r\n")),
      .server (.work 1), .server (.work 1), .server (.work 1), .read (ascii "18\r\n")]

/-- No reply is read that has to be read at once. -/
def cutsAnywhere (key : κ) (st : SharedServer κ σ n) : Event κ n → Bool
  | .read bytes => (st.conversation key st.server.store).cutsAnywhere (.read bytes)
  | _ => true

theorem stopsWell_of_cutsAnywhere (st : SharedServer κ σ n) (e : Event κ n)
    (h : st.cutsAnywhere key e = true) : st.StopsWell e := by
  cases e with
  | read bytes =>
    exact (st.conversation key st.server.store).stopsWell_of_cutsAnywhere (.read bytes) h
  | begin | write | written | server => trivial

end SharedServer

end Memcarrot
