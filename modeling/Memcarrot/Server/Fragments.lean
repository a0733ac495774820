import Memcarrot.Incremental.Decisions
import Memcarrot.Server.Isolation

open Incremental RawMemory Transition

namespace Memcarrot

theorem MemcachedCommand.move_zero (cmd : MemcachedCommand) : cmd.move 0 = cmd := by
  have hslice : Slice.move 0 = id := by
    funext slice
    simp [Slice.move]
  simp [MemcachedCommand.move, hslice]

namespace CommandProcessor

variable {σ : Type} {services : Services σ} {bytes : List UInt8} {outSize : Int} {s : σ}

/-- What `process` makes of the bytes when they are all of the input. -/
def processBytes (services : Services σ) (outSize : Int) (bytes : List UInt8) (s : σ) :
    Processed σ :=
  process services (Memory.ofBytes 1 bytes) 1 bytes.length outSize s

theorem slice_ofBytes_one (bytes : List UInt8) :
    (Memory.ofBytes 1 bytes).slice 1 bytes.length = bytes := by
  simpa using Memory.slice_ofBytes 1 [] bytes

/-- A call of `process` on the same bytes in a buffer. -/
theorem process_of_slice {m : Memory} {buf : Int} {size : Nat} (hbuf : 0 < buf)
    (h : m.slice buf size = bytes) :
    process services m buf size outSize s =
      { processBytes services outSize bytes s with
        lastCommand := (processBytes services outSize bytes s).lastCommand.map
          (MemcachedCommand.move (buf - 1)) } := by
  have hsize : size = bytes.length := by rw [← h, Memory.length_slice]
  subst hsize
  exact process_relocated (by decide) hbuf (h.trans (slice_ofBytes_one bytes).symm) outSize s

/-- The inputs for which more bytes do not change a decision: those that begin with a request, or
with neither a command without keys nor a get that ends with its line. -/
def Steady (U : CacheUtils) (bytes : List UInt8) : Prop :=
  (∃ (r : Wire.Request U) (rest : List UInt8), bytes = r.bytes ++ rest) ∨
    ¬ Parsing.BareGet bytes ∧
      ∀ cls : CommandClass, Wire.firstToken bytes = cls.word → cls.isAbstract = true

theorem parse_ne_incomplete
    (hdecided : (processBytes services outSize bytes s).result ≠ .incomplete) :
    (CommandParser.parse services.utils 1 bytes.length).run (Memory.ofBytes 1 bytes) ≠
      .incomplete := by
  intro hparse
  apply hdecided
  unfold processBytes process
  rw [hparse]

/-- A decision about a steady input is the one with more bytes behind it. -/
theorem Steady.process_append (h : Steady services.utils bytes)
    (hdecided : (processBytes services outSize bytes s).result ≠ .incomplete)
    (tail : List UInt8) :
    processBytes services outSize (bytes ++ tail) s = processBytes services outSize bytes s := by
  have hslice := slice_ofBytes_one bytes
  have hslice' := slice_ofBytes_one (bytes ++ tail)
  have hrel : Verdict.Rel (Wire.MovedCommand 0)
      ((CommandParser.parse services.utils 1 bytes.length).run (Memory.ofBytes 1 bytes))
      ((CommandParser.parse services.utils 1 (bytes ++ tail).length).run
        (Memory.ofBytes 1 (bytes ++ tail))) := by
    have hparse := parse_ne_incomplete hdecided
    rw [Refinement.parse_run, Refinement.parse_run, hslice'] at *
    rw [hslice] at *
    rcases h with ⟨r, rest, hrest⟩ | ⟨-, hkeyed⟩
    · rw [hrest, List.append_assoc, r.parse_eq, r.parse_eq]
      exact .done (r.command 1).move_zero.symm
    · have hbelow := Wire.parse_below_of_keyed services.utils ⟨1, bytes⟩ 0 tail (.inl hkeyed)
      exact hbelow.rel_of_ne_incomplete hparse
  have hprocess := process_of_rel (by decide) (by decide)
    (hslice'.trans (congrArg (· ++ tail) hslice.symm)) hrel outSize s
  have hmove : MemcachedCommand.move 0 = id := funext MemcachedCommand.move_zero
  simp only [Int.sub_self, hmove, Option.map_id, id] at hprocess
  exact hprocess

/-- A request of a steady input does not go beyond it. -/
theorem Steady.inputConsumed_le (h : Steady services.utils bytes) {cmd : MemcachedCommand}
    (hlast : (processBytes services outSize bytes s).lastCommand = some cmd) :
    0 < cmd.inputConsumed ∧ cmd.inputConsumed ≤ bytes.length := by
  obtain ⟨hparse, -⟩ := Parsing.parse_of_process_lastCommand (by decide) hlast
  rcases h with ⟨r, rest, rfl⟩ | ⟨hbare, -⟩
  · rw [Refinement.parse_run, slice_ofBytes_one, r.parse_eq] at hparse
    have hpos := r.length_bytes_pos
    rw [← Verdict.done.inj hparse, r.inputConsumed_command, List.length_append]
    omega
  · obtain ⟨hpos, hle⟩ := Parsing.inputConsumed_bounds hparse
    rw [slice_ofBytes_one] at hle
    exact ⟨hpos, hle.resolve_right hbare⟩

theorem processBytes_nil :
    processBytes services outSize [] s = { store := s, result := .incomplete } := by
  have hparse : (CommandParser.parse services.utils 1 ([] : List UInt8).length).run
      (Memory.ofBytes 1 []) = .incomplete := by
    rw [Refinement.parse_run, slice_ofBytes_one]
    rfl
  unfold processBytes process
  rw [hparse]

/-- Nothing is done for a request that is not complete. -/
theorem process_of_incomplete {m : Memory} {buf size : Int}
    (h : (process services m buf size outSize s).result = .incomplete) :
    process services m buf size outSize s = { store := s, result := .incomplete } := by
  unfold process at h ⊢
  cases hparse : (CommandParser.parse services.utils buf size).run m with
  | incomplete => rfl
  | failed e =>
    rw [hparse] at h
    cases e <;> cases h
  | done cmd =>
    rw [hparse] at h
    simp only at h
    split at h
    · cases houtcome : ((cmd.operation m).execute services outSize s).outcome <;>
        simp [houtcome, Outcome.result] at h
    · cases h

end CommandProcessor

namespace WorkThread

open CommandProcessor

/-- What comes of one decision about the input of a connection. -/
structure Effect where
  executed : List Operation := []
  written : List UInt8 := []
  deriving DecidableEq, Repr

/-- What is made of the input of a connection that has arrived, however it did. -/
def decide {σ : Type} (services : Services σ) (bufferSize : Nat) : Decider UInt8 Effect σ :=
  fun input s =>
    let p := processBytes services bufferSize (input.take bufferSize) s
    let effect (reply : List UInt8) : Effect := ⟨p.executed.toList, p.chunks.flatten ++ reply⟩
    let inBuffer (reply : List UInt8) := if reply.length ≤ bufferSize then reply else []
    match p.result with
    | .incomplete =>
      if input.length < bufferSize then .wait
      else .stop { written := inBuffer Errors.INPUT_TOO_LARGE } s
    | .response bytes =>
      if bytes.length > bufferSize then .stop (effect []) p.store
      else
        match p.lastCommand with
        | none => .stop (effect bytes) p.store
        | some cmd =>
          if cmd.cls = .QUIT then .stop (effect bytes) p.store
          else .take cmd.inputConsumed.toNat (effect bytes) p.store
    | .bufferOverflow => .stop (effect (inBuffer Errors.OUTPUT_TOO_LARGE)) p.store
    | .exit | .uncaught _ => .stop (effect []) p.store

variable {σ : Type} {services : Services σ} {bufferSize : Nat} {st st' : WorkThread σ}

section Decisions

variable {p : Progress UInt8 Effect σ}

theorem ready_of_steady (hsteady : Steady services.utils p.input)
    (hdecided : (processBytes services bufferSize p.input p.store).result ≠ .incomplete)
    (hle : p.input.length ≤ bufferSize) : p.Ready (decide services bufferSize) := by
  have htake := List.take_of_length_le hle
  constructor
  · intro more
    have htake' : (p.input ++ more).take bufferSize =
        p.input ++ more.take (bufferSize - p.input.length) := by
      rw [List.take_append, htake]
    unfold decide
    rw [htake', htake, hsteady.process_append hdecided]
    cases hresult : (processBytes services bufferSize p.input p.store).result with
    | incomplete => exact absurd hresult hdecided
    | response | bufferOverflow | exit | uncaught => simp only [hresult]
  · intro count output next htaken
    unfold decide at htaken
    rw [htake] at htaken
    cases hresult : (processBytes services bufferSize p.input p.store).result with
    | incomplete => exact absurd hresult hdecided
    | bufferOverflow | exit | uncaught => simp [hresult] at htaken
    | response bytes =>
      simp only [hresult] at htaken
      split at htaken
      · cases htaken
      cases hlast : (processBytes services bufferSize p.input p.store).lastCommand with
      | none => simp [hlast] at htaken
      | some cmd =>
        obtain ⟨-, hconsumed⟩ := hsteady.inputConsumed_le hlast
        simp only [hlast] at htaken
        split at htaken
        · cases htaken
        · cases htaken
          omega

theorem ready_of_full
    (hincomplete : (processBytes services bufferSize p.input p.store).result = .incomplete)
    (hfull : p.input.length = bufferSize) : p.Ready (decide services bufferSize) := by
  have htake (more : List UInt8) : (p.input ++ more).take bufferSize = p.input := by
    rw [← hfull, List.take_left]
  have hself := htake []
  rw [List.append_nil] at hself
  constructor
  · intro more
    have hmore : ¬ (p.input ++ more).length < bufferSize := by
      rw [List.length_append]
      omega
    unfold decide
    rw [htake, hself]
    simp only [hincomplete, hmore, hfull, Nat.lt_irrefl, if_false]
  · intro count output next htaken
    unfold decide at htaken
    rw [hself] at htaken
    simp [hincomplete, hfull] at htaken

theorem decide_of_incomplete
    (hincomplete : (processBytes services bufferSize p.input p.store).result = .incomplete)
    (hroom : p.input.length < bufferSize) :
    decide services bufferSize p.input p.store = .wait := by
  unfold decide
  rw [List.take_of_length_le hroom.le]
  simp only [hincomplete, hroom, if_true]

theorem decide_of_ended (hle : p.input.length ≤ bufferSize) {r : Processed σ}
    (hr : processBytes services bufferSize p.input p.store = r)
    (hended : r.result = .exit ∨ ∃ e, r.result = .uncaught e) :
    decide services bufferSize p.input p.store =
      .stop ⟨r.executed.toList, r.chunks.flatten⟩ r.store := by
  unfold decide
  rw [List.take_of_length_le hle, hr]
  rcases hended with hresult | ⟨e, hresult⟩
  · simp only [hresult, List.append_nil]
  · simp only [hresult, List.append_nil]

end Decisions

/-- There is nothing to be done before the next read of the channel. -/
def Idle (bufferSize : Nat) (st : WorkThread σ) : Prop :=
  st.phase ≠ .processing ∧ ¬ (st.phase = .reading ∧ st.inputSize = bufferSize)

/-- A step that decides nothing, or about a steady input and without an overflow of the output
buffer. -/
def Settled (services : Services σ) (bufferSize : Nat) (st : WorkThread σ) (e : Event) : Prop :=
  e = .advance → st.phase = .processing →
    (st.processed services bufferSize).result ≠ .incomplete →
      Steady services.utils st.unconsumed ∧
        (st.processed services bufferSize).result ≠ .bufferOverflow

/-- The thread stands for what is decided about the received stream. -/
structure Tracks (services : Services σ) (bufferSize : Nat) (s : σ) (st : WorkThread σ)
    (p : Progress UInt8 Effect σ) : Prop where
  arrives : Progress.Arrives (decide services bufferSize) s st.received p
  executed : st.executed = p.output.flatMap Effect.executed
  written : st.written = p.output.flatMap Effect.written
  store : st.store = p.store
  isOpen : st.phase.isOpen = true → p.stopped = false ∧ st.unconsumed = p.input
  ended : st.phase.isOpen = false → p.Rests (decide services bufferSize)
  inBuffer : st.phase = .reading ∨ st.phase = .processing →
    0 < st.inPtr ∧ st.position = st.inputSize ∧ st.inputSize ≤ bufferSize
  reading : st.phase = .reading →
    (processBytes services bufferSize p.input p.store).result = .incomplete
  processing : st.phase = .processing → st.Bounded

section Steps

variable {p : Progress UInt8 Effect σ} {s : σ}

theorem Tracks.start (s : σ) :
    Tracks services bufferSize s ({ store := s } : WorkThread σ) { input := [], store := s } :=
  ⟨.start, rfl, rfl, rfl, fun _ => ⟨rfl, rfl⟩, by simp [Phase.isOpen], by simp, by simp, by simp⟩

theorem Tracks.rests (h : Tracks services bufferSize s st p) (hbuffer : 0 < bufferSize)
    (hidle : st.Idle bufferSize) : p.Rests (decide services bufferSize) := by
  obtain ⟨hprocessing, hfull⟩ := hidle
  cases hphase : st.phase with
  | waiting =>
    obtain ⟨-, hinput⟩ := h.isOpen (by rw [hphase]; rfl)
    rw [WorkThread.unconsumed, hphase] at hinput
    right
    apply decide_of_incomplete
    · rw [← hinput, processBytes_nil]
    · rw [← hinput]
      exact hbuffer
  | reading =>
    obtain ⟨-, hinput⟩ := h.isOpen (by rw [hphase]; rfl)
    obtain ⟨-, -, hsize⟩ := h.inBuffer (.inl hphase)
    rw [WorkThread.unconsumed, hphase] at hinput
    right
    apply decide_of_incomplete (h.reading hphase)
    rw [← hinput, Memory.length_slice]
    exact lt_of_le_of_ne hsize fun heq => hfull ⟨hphase, heq⟩
  | processing => exact absurd hphase hprocessing
  | closed | dead | exited => exact h.ended (by rw [hphase]; rfl)

/-- The call of `process` in a round, on the unconsumed bytes alone. -/
theorem processed_eq (services : Services σ) (bufferSize : Nat) (hphase : st.phase = .processing)
    (hst : st.Bounded) :
    ∃ shift, st.processed services bufferSize =
      { processBytes services bufferSize st.unconsumed st.store with
        lastCommand := (processBytes services bufferSize st.unconsumed st.store).lastCommand.map
          (MemcachedCommand.move shift) } := by
  have hptr := hst.inPtr_pos
  have hnonneg := hst.consumed_nonneg
  have hlength := length_unconsumed hphase hst
  have hslice := unconsumed_eq hphase
  have hsize : st.inputSize - st.consumed = ((st.inputSize - st.consumed).toNat : Int) := by omega
  have hbuf : 0 < st.inPtr + st.consumed := by omega
  unfold processed
  rw [hsize]
  exact ⟨_, process_of_slice hbuf hslice.symm⟩

/-- The end of the run for a connection, with the last output. -/
theorem Tracks.stop (h : Tracks services bufferSize s st p) (hopen : st.phase.isOpen = true)
    (hready : p.Ready (decide services bufferSize)) {effect : Effect} {next : σ}
    (hstop : decide services bufferSize p.input p.store = .stop effect next)
    (hended : st'.phase.isOpen = false) (hreceived : st'.received = st.received)
    (hexecuted : st'.executed = st.executed ++ effect.executed)
    (hwritten : st'.written = st.written ++ effect.written) (hstore : st'.store = next) :
    ∃ p', Tracks services bufferSize s st' p' := by
  obtain ⟨hgoes, -⟩ := h.isOpen hopen
  have hnot {phase : Phase} (hphase : st'.phase = phase) (hgoing : phase.isOpen = true) :
      False := by
    rw [← hphase, hended] at hgoing
    cases hgoing
  refine ⟨_, hreceived ▸ h.arrives.decide hready (.stop hgoes hstop), ?_, ?_, hstore, ?_, ?_, ?_,
    fun hphase => (hnot hphase rfl).elim, fun hphase => (hnot hphase rfl).elim⟩
  · simp only [hexecuted, h.executed, List.flatMap_append, List.flatMap_singleton]
  · simp only [hwritten, h.written, List.flatMap_append, List.flatMap_singleton]
  · exact fun hgoing => (hnot rfl hgoing).elim
  · exact fun _ => .inl rfl
  · rintro (hphase | hphase)
    · exact (hnot hphase rfl).elim
    · exact (hnot hphase rfl).elim

/-- A request is passed over, and the loop goes on. -/
theorem Tracks.take (h : Tracks services bufferSize s st p) (hphase : st.phase = .processing)
    (hready : p.Ready (decide services bufferSize)) {count : Nat} {effect : Effect} {next : σ}
    (htake : decide services bufferSize p.input p.store = .take count effect next) :
    ∃ p', Tracks services bufferSize s { st with
      store := next
      executed := st.executed ++ effect.executed
      written := st.written ++ effect.written
      consumed := st.consumed + count } p' := by
  obtain ⟨hgoes, hinput⟩ := h.isOpen (by rw [hphase]; rfl)
  have hcount : count ≤ st.unconsumed.length := by
    rw [hinput]
    exact hready.inside htake
  obtain ⟨hbounded, hrest⟩ := consume_spec hphase (h.processing hphase) hcount next
    (st.executed ++ effect.executed) (st.written ++ effect.written)
  refine ⟨_, h.arrives.decide hready (.take hgoes htake), ?_, ?_, rfl, fun _ => ⟨hgoes, ?_⟩, ?_,
    fun _ => h.inBuffer (.inr hphase), ?_, fun _ => hbounded⟩
  · simp only [h.executed, List.flatMap_append, List.flatMap_singleton]
  · simp only [h.written, List.flatMap_append, List.flatMap_singleton]
  · rw [hrest, hinput]
  · simp [hphase, Phase.isOpen]
  · simp [hphase]

theorem Tracks.compact (h : Tracks services bufferSize s st p) (hphase : st.phase = .processing)
    (hincomplete : (processBytes services bufferSize p.input p.store).result = .incomplete) :
    Tracks services bufferSize s st.compact p := by
  have hst := h.processing hphase
  obtain ⟨hptr, -, hsize⟩ := h.inBuffer (.inr hphase)
  obtain ⟨hgoes, hinput⟩ := h.isOpen (by rw [hphase]; rfl)
  obtain ⟨hunconsumed, hreading, hposition, hcompact⟩ := compact_spec hphase hst
  have hlength := length_unconsumed hphase hst
  have hinputSize : st.compact.inputSize = st.unconsumed.length := by
    rw [← hunconsumed, WorkThread.unconsumed, hreading, Memory.length_slice]
  have hnonneg := hst.consumed_nonneg
  refine ⟨?_, ?_, ?_, ?_, fun _ => ⟨hgoes, hunconsumed.trans hinput⟩, ?_,
    fun _ => ⟨?_, hposition, ?_⟩, fun _ => hincomplete, by simp [hreading]⟩
  · rw [hcompact]
    exact h.arrives
  · rw [hcompact]
    exact h.executed
  · rw [hcompact]
    exact h.written
  · rw [hcompact]
    exact h.store
  · simp [hreading, Phase.isOpen]
  · rw [hcompact]
    exact hptr
  · omega

/-- The state behind a call of `process`. -/
def after (st : WorkThread σ) (r : Processed σ) : WorkThread σ :=
  { st with
    store := r.store
    executed := st.executed ++ r.executed.toList
    written := st.written ++ r.chunks.flatten }

theorem Tracks.respond (h : Tracks services bufferSize s st p) (hphase : st.phase = .processing)
    (hready : p.Ready (decide services bufferSize)) (hle : p.input.length ≤ bufferSize)
    {r : Processed σ} (hr : processBytes services bufferSize p.input p.store = r)
    {bytes : List UInt8} (hresult : r.result = .response bytes)
    (hpos : ∀ cmd, r.lastCommand = some cmd → 0 < cmd.inputConsumed) (shift : Int) :
    ∃ p', Tracks services bufferSize s
      ((st.after r).respond bufferSize bytes (r.lastCommand.map (MemcachedCommand.move shift)))
        p' := by
  have hopen : st.phase.isOpen = true := by rw [hphase]; rfl
  have hdecide : decide services bufferSize p.input p.store =
      if bytes.length > bufferSize then .stop ⟨r.executed.toList, r.chunks.flatten ++ []⟩ r.store
      else
        match r.lastCommand with
        | none => .stop ⟨r.executed.toList, r.chunks.flatten ++ bytes⟩ r.store
        | some cmd =>
          if cmd.cls = .QUIT then .stop ⟨r.executed.toList, r.chunks.flatten ++ bytes⟩ r.store
          else .take cmd.inputConsumed.toNat ⟨r.executed.toList, r.chunks.flatten ++ bytes⟩
            r.store := by
    unfold decide
    rw [List.take_of_length_le hle, hr]
    simp only [hresult]
  unfold WorkThread.respond
  by_cases hlong : bytes.length > bufferSize
  · rw [if_pos hlong] at hdecide ⊢
    exact h.stop hopen hready hdecide rfl rfl rfl (by simp [after]) rfl
  rw [if_neg hlong] at hdecide ⊢
  cases hlast : r.lastCommand with
  | none =>
    rw [hlast] at hdecide
    exact h.stop hopen hready hdecide rfl rfl rfl (by simp [after]) rfl
  | some cmd =>
    rw [hlast] at hdecide
    simp only [Option.map_some]
    have hcls : (cmd.move shift).cls = cmd.cls := rfl
    rw [hcls]
    by_cases hquit : cmd.cls = .QUIT
    · simp only [hquit, if_true] at hdecide ⊢
      exact h.stop hopen hready hdecide rfl rfl rfl (by simp [after]) rfl
    · simp only [hquit, if_false] at hdecide ⊢
      obtain ⟨p', htracks⟩ := h.take hphase hready hdecide
      have hconsumed : (cmd.inputConsumed.toNat : Int) = cmd.inputConsumed :=
        Int.toNat_of_nonneg (Int.le_of_lt (hpos cmd hlast))
      rw [hconsumed, ← List.append_assoc] at htracks
      exact ⟨p', htracks⟩

/-- The rounds of the loop over the requests are the decisions about the stream. -/
theorem Tracks.round (h : Tracks services bufferSize s st p) (hphase : st.phase = .processing)
    (hsettled : Settled services bufferSize st .advance) :
    ∃ p', Tracks services bufferSize s (st.round services bufferSize) p' := by
  have hst := h.processing hphase
  have hopen : st.phase.isOpen = true := by rw [hphase]; rfl
  obtain ⟨hptr, -, hsize⟩ := h.inBuffer (.inr hphase)
  obtain ⟨hgoes, hinput⟩ := h.isOpen hopen
  have hlength := length_unconsumed hphase hst
  have hnonneg := hst.consumed_nonneg
  have hle : p.input.length ≤ bufferSize := by
    rw [← hinput]
    omega
  by_cases hempty : st.unconsumed = []
  · rw [round_of_empty hphase hst hempty]
    exact ⟨p, h.arrives, h.executed, h.written, h.store, fun _ => ⟨hgoes, hempty.symm.trans hinput⟩,
      by simp [Phase.isOpen], by simp, by simp, by simp⟩
  obtain ⟨shift, hprocessed⟩ := processed_eq services bufferSize hphase hst
  have hsteady := hsettled rfl hphase
  rw [hinput, h.store] at hprocessed
  rw [hprocessed, hinput] at hsteady
  have hready
      (hdecided : (processBytes services bufferSize p.input p.store).result ≠ .incomplete) :=
    ready_of_steady (hsteady hdecided).1 hdecided hle
  rw [round_of_ne_nil services bufferSize hphase hst hempty]
  obtain ⟨r, hr⟩ : ∃ r, processBytes services bufferSize p.input p.store = r := ⟨_, rfl⟩
  rw [hr] at hprocessed
  have hafter : st.afterProcess services bufferSize = st.after r := by
    unfold afterProcess
    rw [hprocessed]
    rfl
  rw [hafter, hprocessed]
  simp only
  cases hresult : r.result with
  | incomplete =>
    have hnothing := process_of_incomplete (hr ▸ hresult)
    rw [← processBytes, hr] at hnothing
    have hsame : st.after r = st := by
      rw [after, hnothing, ← h.store]
      simp
    simp only [hsame]
    exact ⟨p, h.compact hphase (hr ▸ hresult)⟩
  | response bytes =>
    have hpos (cmd : MemcachedCommand) (hlast : r.lastCommand = some cmd) : 0 < cmd.inputConsumed :=
      ((hsteady (by simp [hr, hresult])).1.inputConsumed_le (hr ▸ hlast)).1
    exact h.respond hphase (hready (by simp [hr, hresult])) hle hr hresult hpos shift
  | bufferOverflow => exact absurd (hr ▸ hresult) (hsteady (by simp [hr, hresult])).2
  | exit =>
    have hdecide := decide_of_ended hle hr (.inl hresult)
    exact h.stop hopen (hready (by simp [hr, hresult])) hdecide rfl rfl rfl rfl rfl
  | uncaught e =>
    have hdecide := decide_of_ended hle hr (.inr ⟨e, hresult⟩)
    exact h.stop hopen (hready (by simp [hr, hresult])) hdecide rfl rfl rfl rfl rfl

theorem Tracks.advance (h : Tracks services bufferSize s st p)
    (hsettled : Settled services bufferSize st .advance) :
    ∃ p', Tracks services bufferSize s (st.advance services bufferSize) p' := by
  unfold WorkThread.advance
  cases hphase : st.phase with
  | processing => exact h.round hphase hsettled
  | waiting | closed | dead | exited => exact ⟨p, h⟩
  | reading =>
    simp only
    by_cases hfull : st.inputSize = bufferSize
    · have hopen : st.phase.isOpen = true := by rw [hphase]; rfl
      obtain ⟨-, hinput⟩ := h.isOpen hopen
      rw [WorkThread.unconsumed, hphase] at hinput
      have hlength : p.input.length = bufferSize := by
        rw [← hinput, Memory.length_slice, hfull]
      have hincomplete := h.reading hphase
      have hready := ready_of_full hincomplete hlength
      have hdecide : decide services bufferSize p.input p.store =
          .stop { written := if Errors.INPUT_TOO_LARGE.length ≤ bufferSize then
            Errors.INPUT_TOO_LARGE else [] } st.store := by
        unfold decide
        rw [List.take_of_length_le hlength.le]
        simp only [hincomplete, hlength, Nat.lt_irrefl, if_false, h.store]
      rw [if_pos hfull]
      unfold WorkThread.inputTooLarge
      by_cases hfits : Errors.INPUT_TOO_LARGE.length ≤ bufferSize
      · simp only [hfits, if_true] at hdecide ⊢
        exact h.stop hopen hready hdecide rfl rfl (by simp) rfl rfl
      · have hshort : Errors.INPUT_TOO_LARGE.length ≤ Errors.OUTPUT_TOO_LARGE.length := by decide
        have hfits' : ¬ Errors.OUTPUT_TOO_LARGE.length ≤ bufferSize := by omega
        simp only [hfits, if_false] at hdecide ⊢
        unfold WorkThread.outputTooLarge
        simp only [hfits', if_false]
        exact h.stop hopen hready hdecide rfl rfl (by simp) (by simp) rfl
    · rw [if_neg hfull]
      exact ⟨p, h⟩

theorem Tracks.step (h : Tracks services bufferSize s st p) {e : Event}
    (hsettled : Settled services bufferSize st e)
    (hstep : st.step services bufferSize e = some st') :
    ∃ p', Tracks services bufferSize s st' p' := by
  cases e with
  | activate memory inPtr =>
    simp only [WorkThread.step, Option.ite_none_right_eq_some, Option.some.injEq] at hstep
    obtain ⟨⟨hphase, hptr⟩, rfl⟩ := hstep
    obtain ⟨hgoes, hinput⟩ := h.isOpen (by rw [hphase]; rfl)
    rw [WorkThread.unconsumed, hphase] at hinput
    refine ⟨p, h.arrives, h.executed, h.written, h.store, fun _ => ⟨hgoes, hinput⟩,
      by simp [Phase.isOpen], fun _ => ⟨hptr, rfl, Nat.zero_le _⟩, fun _ => ?_, by simp⟩
    rw [← hinput, processBytes_nil]
  | read bytes =>
    simp only [WorkThread.step, Option.ite_none_right_eq_some, Option.some.injEq] at hstep
    obtain ⟨⟨-, hphase, -, hroom⟩, rfl⟩ := hstep
    obtain ⟨hgoes, hinput⟩ := h.isOpen (by rw [hphase]; rfl)
    obtain ⟨hptr, hposition, -⟩ := h.inBuffer (.inl hphase)
    have hwritten := Memory.slice_write_append st.memory st.inPtr st.inputSize bytes
    rw [WorkThread.unconsumed, hphase] at hinput
    refine ⟨p.extend bytes, h.arrives.receive bytes, h.executed, h.written, h.store,
      fun _ => ⟨hgoes, ?_⟩, by simp [Phase.isOpen], fun _ => ⟨hptr, ?_, ?_⟩, by simp,
      fun _ => ⟨hptr, ?_, by simp, by simp; omega⟩⟩
    · simp only [WorkThread.unconsumed, hposition, Int.add_zero, Int.sub_zero, Int.toNat_natCast,
        hwritten, hinput, Progress.extend]
    · simp only [hposition]
    · simp only
      omega
    · simp only [hposition]
  | readNothing =>
    simp only [WorkThread.step, Option.ite_none_right_eq_some, Option.some.injEq] at hstep
    obtain ⟨-, rfl⟩ := hstep
    exact ⟨p, h⟩
  | hangUp =>
    simp only [WorkThread.step, Option.ite_none_right_eq_some, Option.some.injEq] at hstep
    obtain ⟨⟨hphase, hnotFull, -⟩, rfl⟩ := hstep
    have hidle : st.Idle bufferSize :=
      ⟨by simp [hphase], fun hfull => hnotFull hfull.2⟩
    obtain ⟨-, -, hsize⟩ := h.inBuffer (.inl hphase)
    refine ⟨p, h.arrives, h.executed, h.written, h.store, by simp [Phase.isOpen],
      fun _ => h.rests (by omega) hidle, by simp, by simp, by simp⟩
  | advance =>
    simp only [WorkThread.step, Option.some.injEq] at hstep
    exact hstep ▸ h.advance hsettled

theorem exists_tracks
    (hrun : Transition.Runs (WorkThread.step services bufferSize) (Settled services bufferSize)
      { store := s } st) : ∃ p, Tracks services bufferSize s st p := by
  induction hrun with
  | refl => exact ⟨_, .start s⟩
  | tail _ hlast ih =>
    obtain ⟨e, hsettled, hstep⟩ := hlast
    obtain ⟨p, htracks⟩ := ih
    exact htracks.step hsettled hstep

end Steps

/-- What is done for a connection does not depend on how its stream is cut into reads, into which
buffers it is read and when it is left for other connections, also where the stream is malformed:
of two runs, the one that has received less has executed and written a beginning of what the other
has, and with the same received both come to the same. -/
theorem run_of_received_prefix (hbuffer : 0 < bufferSize) {s : σ} {st st' : WorkThread σ}
    (hrun : Transition.Runs (WorkThread.step services bufferSize) (Settled services bufferSize)
      { store := s } st)
    (hrun' : Transition.Runs (WorkThread.step services bufferSize) (Settled services bufferSize)
      { store := s } st')
    (hidle : st'.Idle bufferSize) (hless : st.received <+: st'.received) :
    st.executed <+: st'.executed ∧ st.written <+: st'.written ∧
      (st.Idle bufferSize → st.received = st'.received →
        st.executed = st'.executed ∧ st.written = st'.written ∧ st.store = st'.store ∧
          (st.phase.isOpen = true → st'.phase.isOpen = true → st.unconsumed = st'.unconsumed)) := by
  obtain ⟨p, htracks⟩ := exists_tracks hrun
  obtain ⟨p', htracks'⟩ := exists_tracks hrun'
  have hrests' := htracks'.rests hbuffer hidle
  have houtput := htracks.arrives.output_prefix htracks'.arrives hrests' hless
  rw [htracks.executed, htracks'.executed, htracks.written, htracks'.written, htracks.store,
    htracks'.store]
  refine ⟨houtput.flatMap _, houtput.flatMap _, fun hidle hreceived => ?_⟩
  have harrives := htracks.arrives
  rw [hreceived] at harrives
  obtain rfl := harrives.eq_of_rests htracks'.arrives (htracks.rests hbuffer hidle) hrests'
  refine ⟨rfl, rfl, rfl, fun hopen hopen' => ?_⟩
  rw [(htracks.isOpen hopen).2, (htracks'.isOpen hopen').2]

/-- A cut off run on a stream that ends with an unknown command, and one on all of it. -/
theorem run_of_received_prefix_delete :
    ∃ st st' : WorkThread ListStore,
      st.received = ascii "delete k\r\nfo" ∧ st'.received = ascii "delete k\r\nfoo\r\n" ∧
      st.executed <+: st'.executed ∧ st.written <+: st'.written ∧
      (st.Idle 64 → st.received = st'.received →
        st.executed = st'.executed ∧ st.written = st'.written ∧ st.store = st'.store ∧
          (st.phase.isOpen = true → st'.phase.isOpen = true → st.unconsumed = st'.unconsumed)) := by
  let go (e : Event) (st : WorkThread ListStore) := (st.step listServices 64 e).getD st
  let active := go (.activate (fun _ => 0) 1) { store := {} }
  let cut := go (.read (ascii "delete k\r\nfo")) active
  let whole := go (.read (ascii "delete k\r\nfoo\r\n")) active
  have hadvance (st : WorkThread ListStore) :
      st.step listServices 64 .advance = some (go .advance st) := rfl
  have hread (bytes : List UInt8)
      (hstep : active.step listServices 64 (.read bytes) = some (go (.read bytes) active)) :
      Transition.Runs (step listServices 64) (Settled listServices 64) { store := {} }
        (go (.read bytes) active) := by
    have hactive : Transition.Runs (step listServices 64) (Settled listServices 64)
        { store := {} } active := .single ⟨.activate (fun _ => 0) 1, nofun, rfl⟩
    exact hactive.tail ⟨.read bytes, nofun, hstep⟩
  have hsettled {st : WorkThread ListStore} (word : List UInt8)
      (hword : Wire.firstToken st.unconsumed = word)
      (hkeyed : ∀ cls : CommandClass, word = cls.word → cls.isAbstract = true)
      (hget : ∀ cls : CommandClass, cls = .GET ∨ cls = .GETS → st.unconsumed ≠ cls.word ++ CRLF)
      (hfits : (st.processed listServices 64).result ≠ .bufferOverflow) :
      Settled listServices 64 st .advance := by
    rintro - - -
    exact ⟨.inr ⟨fun ⟨cls, hcls, hbare⟩ => hget cls hcls hbare, hword ▸ hkeyed⟩, hfits⟩
  have hdelete (cls : CommandClass) (h : ascii "delete" = cls.word) : cls.isAbstract = true := by
    have hcls := (Wire.classOf_eq_some_iff.mpr h).symm
    rw [show Wire.classOf (ascii "delete") = some .DELETE by decide +kernel] at hcls
    cases hcls
    rfl
  have hunknown (cls : CommandClass) (h : ascii "foo" = cls.word) : cls.isAbstract = true := by
    cases cls <;> revert h <;> decide +kernel
  have hcut := hread (ascii "delete k\r\nfo") rfl
  have hwhole := hread (ascii "delete k\r\nfoo\r\n") rfl
  have hfirst : Settled listServices 64 whole .advance :=
    hsettled (ascii "delete") (by decide +kernel) hdelete
      (by rintro cls (rfl | rfl) <;> decide +kernel) (by decide +kernel)
  have hsecond : Settled listServices 64 (go .advance whole) .advance :=
    hsettled (ascii "foo") (by decide +kernel) hunknown
      (by rintro cls (rfl | rfl) <;> decide +kernel) (by decide +kernel)
  have hlast : Transition.Runs (step listServices 64) (Settled listServices 64) { store := {} }
      (go .advance (go .advance whole)) :=
    (hwhole.tail ⟨.advance, hfirst, hadvance _⟩).tail ⟨.advance, hsecond, hadvance _⟩
  have hclosed : (go .advance (go .advance whole)).phase = .closed := by decide +kernel
  have hidle : (go .advance (go .advance whole)).Idle 64 := by simp [Idle, hclosed]
  have hreceived : cut.received = ascii "delete k\r\nfo" := by decide +kernel
  have hreceived' : (go .advance (go .advance whole)).received = ascii "delete k\r\nfoo\r\n" := by
    decide +kernel
  have hless : cut.received <+: (go .advance (go .advance whole)).received := by
    rw [hreceived, hreceived']
    decide +kernel
  exact ⟨_, _, hreceived, hreceived', run_of_received_prefix (by decide) hcut hlast hidle hless⟩

end WorkThread

end Memcarrot
