import Memcarrot.Parsing.Consumption
import Memcarrot.Parsing.MemorySafety
import Memcarrot.Server.Rounds
import Memcarrot.Transition.Runs

open RawMemory Transition

namespace Memcarrot

/-- A thread with the number of bytes that it has read from the channel since it took the key, and
how many of them were consumed by commands that it executed and answered. -/
structure Activation (σ : Type) where
  thread : WorkThread σ
  read : Nat := 0
  consumed : Int := 0

namespace WorkThread

variable {σ : Type}

/-- The bytes that are consumed by the command of a round, if it is executed and answered. -/
def answered (services : Services σ) (bufferSize : Nat) (st : WorkThread σ) : Int :=
  let p := st.processed services bufferSize
  match p.result, p.executed, p.lastCommand with
  | .response bytes, some _, some cmd => if bytes.length ≤ bufferSize then cmd.inputConsumed else 0
  | _, _, _ => 0

/-- The thread has released the key, and the channel is open. -/
def Released (st : WorkThread σ) : Prop := st.phase = .waiting ∨ st.phase = .dead

/-- The thread goes on without loss: if it is in a round, what is left is not a bare get, and
`process` returns, with a response that fits into the output buffer; if the input buffer is full,
there is room for the answer to this. -/
structure Settles (services : Services σ) (bufferSize : Nat) (st : WorkThread σ) : Prop where
  notBareGet : st.phase = .processing → ¬ Parsing.BareGet st.unconsumed
  returns : st.phase = .processing → st.unconsumed ≠ [] →
    match (st.processed services bufferSize).result with
    | .incomplete | .exit => True
    | .response bytes => bytes.length ≤ bufferSize
    | .bufferOverflow | .uncaught _ => False
  full : st.phase = .reading → st.inputSize = bufferSize → 0 < bufferSize →
    Errors.INPUT_TOO_LARGE.length ≤ bufferSize

end WorkThread

namespace Activation

variable {σ : Type}

/-- An event of the thread, or an IOException from a write to the channel in the middle of a round,
with what is in the store and what was written by then. -/
inductive Event (σ : Type) where
  | thread (e : WorkThread.Event)
  | writeFails (store : σ) (written : List UInt8)

/-- The bytes that the activation has read after an event. -/
def readAfter (a : Activation σ) : WorkThread.Event → Nat
  | .activate _ _ => 0
  | .read bytes => a.read + bytes.length
  | .readNothing | .hangUp | .advance => a.read

/-- The bytes that its commands have consumed after an event. -/
def consumedAfter (services : Services σ) (bufferSize : Nat) (a : Activation σ) :
    WorkThread.Event → Int
  | .activate _ _ => 0
  | .advance =>
    if a.thread.phase = .processing ∧ a.thread.unconsumed ≠ [] then
      a.consumed + a.thread.answered services bufferSize
    else a.consumed
  | .read _ | .readNothing | .hangUp => a.consumed

def step (services : Services σ) (bufferSize : Nat) (a : Activation σ) :
    Event σ → Option (Activation σ)
  | .thread e =>
    (a.thread.step services bufferSize e).map fun thread =>
      { thread, read := a.readAfter e, consumed := a.consumedAfter services bufferSize e }
  | .writeFails store written =>
    if a.thread.phase = .processing then
      some { a with thread := { a.thread with
        store, written := a.thread.written ++ written, phase := .closed } }
    else none

/-- All that was read is consumed when the key is released and the channel left open. -/
def Settled (a : Activation σ) : Prop := a.thread.Released → a.consumed = a.read

/-- What is read and not consumed is in the buffer. -/
structure Accounts (a : Activation σ) : Prop where
  settled : a.Settled
  reading : a.thread.phase = .reading →
    0 < a.thread.inPtr ∧ a.thread.position = a.thread.inputSize ∧
      a.consumed + a.thread.inputSize = a.read
  processing : a.thread.phase = .processing →
    a.thread.Bounded ∧ a.consumed + a.thread.unconsumed.length = a.read

end Activation

namespace WorkThread

open CommandProcessor Parsing

variable {σ : Type} {services : Services σ} {bufferSize : Nat} {st : WorkThread σ}

/-- The last command of a round is the one that is parsed, and it is executed. -/
theorem parse_of_lastCommand (hst : st.Bounded) {cmd : MemcachedCommand}
    (h : (st.processed services bufferSize).lastCommand = some cmd) :
    (CommandParser.parse services.utils (st.inPtr + st.consumed)
        (st.inputSize - st.consumed).toNat).run st.memory = .done cmd ∧
      (st.processed services bufferSize).executed.isSome = true := by
  have hpos := hst.inPtr_pos
  have hnonneg := hst.consumed_nonneg
  have hle := hst.consumed_le
  have hptr : 0 < st.inPtr + st.consumed := by omega
  have hsize : st.inputSize - st.consumed = ((st.inputSize - st.consumed).toNat : Int) := by omega
  unfold processed at h ⊢
  generalize (st.inputSize - st.consumed).toNat = size at hsize ⊢
  rw [hsize] at h ⊢
  exact parse_of_process_lastCommand hptr h

theorem answered_eq (hst : st.Bounded) {bytes : List UInt8}
    (hresult : (st.processed services bufferSize).result = .response bytes)
    (hfits : bytes.length ≤ bufferSize) :
    st.answered services bufferSize =
      ((st.processed services bufferSize).lastCommand.map
        MemcachedCommand.inputConsumed).getD 0 := by
  unfold answered
  cases hlast : (st.processed services bufferSize).lastCommand with
  | none => simp [hresult, hlast]
  | some cmd =>
    obtain ⟨op, hop⟩ := Option.isSome_iff_exists.mp (parse_of_lastCommand hst hlast).2
    simp [hresult, hop, hlast, hfits]

theorem answered_eq_zero (h : ∀ bytes,
    (st.processed services bufferSize).result = .response bytes → bufferSize < bytes.length) :
    st.answered services bufferSize = 0 := by
  unfold answered
  simp only
  split
  case h_1 bytes _ _ hresult _ _ => rw [if_neg (Nat.not_le.mpr (h bytes hresult))]
  case h_2 => rfl

/-- What the command of a round consumes is in the buffer, but for a bare get. -/
theorem inputConsumed_processed (hphase : st.phase = .processing) (hst : st.Bounded)
    {cmd : MemcachedCommand} (h : (st.processed services bufferSize).lastCommand = some cmd) :
    0 < cmd.inputConsumed ∧
      (cmd.inputConsumed ≤ st.unconsumed.length ∨ BareGet st.unconsumed) := by
  have hbounds := inputConsumed_bounds (parse_of_lastCommand hst h).1
  rw [unconsumed_eq hphase, Memory.length_slice]
  exact hbounds

/-- A response that fits ends the round, and with it the connection or not. -/
theorem respond_of_fits {bytes : List UInt8} (hfits : bytes.length ≤ bufferSize)
    (lastCommand : Option MemcachedCommand) :
    (st.respond bufferSize bytes lastCommand).phase = .closed ∨
    ∃ cmd, lastCommand = some cmd ∧
      st.respond bufferSize bytes lastCommand =
        { st with
          written := st.written ++ bytes
          consumed := st.consumed + cmd.inputConsumed } := by
  unfold respond
  rw [if_neg (by omega)]
  cases lastCommand with
  | none => exact .inl rfl
  | some cmd =>
    by_cases hquit : cmd.cls = .QUIT
    · left
      simp only [hquit, if_true]
    · right
      exact ⟨cmd, rfl, by simp only [hquit, if_false]⟩

end WorkThread

namespace Activation

open WorkThread

variable {σ : Type} {services : Services σ} {bufferSize : Nat} {a : Activation σ}

/-- Outside of the outer loop, the count is right if it is at a release. -/
theorem accounts_of_settled (h : a.Settled) (hreading : a.thread.phase ≠ .reading)
    (hprocessing : a.thread.phase ≠ .processing) : a.Accounts :=
  ⟨h, fun hphase => absurd hphase hreading, fun hphase => absurd hphase hprocessing⟩

/-- An activation that has ended without a release of an open channel. -/
theorem accounts_of_ended (h : a.thread.phase = .closed ∨ a.thread.phase = .exited) :
    a.Accounts := by
  have hsettled : a.Settled := by
    rintro (hphase | hphase)
    all_goals simp [hphase] at h
  rcases h with h | h
  all_goals exact accounts_of_settled hsettled (by simp [h]) (by simp [h])

/-- In the outer loop, no key is released. -/
theorem settled_of_running (h : a.thread.phase = .reading ∨ a.thread.phase = .processing) :
    a.Settled := by
  rintro (hphase | hphase)
  all_goals simp [hphase] at h

/-- A round that settles keeps count of the input. -/
theorem Accounts.round (h : a.Accounts) (hphase : a.thread.phase = .processing)
    (hne : a.thread.unconsumed ≠ []) (hsettles : a.thread.Settles services bufferSize) :
    Accounts { a with
      thread := a.thread.round services bufferSize
      consumed := a.consumed + a.thread.answered services bufferSize } := by
  obtain ⟨hst, hcount⟩ := h.processing hphase
  have hbare := hsettles.notBareGet hphase
  have hreturns := hsettles.returns hphase hne
  have hround := round_of_ne_nil services bufferSize hphase hst hne
  cases hresult : (a.thread.processed services bufferSize).result with
  | incomplete =>
    have hanswered := answered_eq_zero (by simp [hresult] : ∀ bytes,
      (a.thread.processed services bufferSize).result = .response bytes → bufferSize < bytes.length)
    simp only [hresult] at hround
    have hafter : (a.thread.afterProcess services bufferSize).Bounded :=
      ⟨hst.inPtr_pos, hst.position_eq, hst.consumed_nonneg, hst.consumed_le⟩
    obtain ⟨hunconsumed, hreading, hposition, hcompact⟩ :=
      compact_spec
        (show (a.thread.afterProcess services bufferSize).phase = .processing from hphase)
        hafter
    rw [hround, hanswered, Int.add_zero]
    refine ⟨settled_of_running (.inl hreading), fun _ => ⟨?_, hposition, ?_⟩, by simp [hreading]⟩
    · rw [hcompact]
      exact hst.inPtr_pos
    · have hsize := congrArg List.length hunconsumed
      rw [unconsumed, hreading] at hsize
      simp only [Memory.length_slice] at hsize
      rw [hsize]
      exact hcount
  | response bytes =>
    simp only [hresult] at hround hreturns
    have hanswered := answered_eq hst hresult hreturns
    rw [hround]
    rcases (a.thread.afterProcess services bufferSize).respond_of_fits hreturns
        (a.thread.processed services bufferSize).lastCommand with hclosed | ⟨cmd, hlast, hrespond⟩
    · exact accounts_of_ended (.inl hclosed)
    · obtain ⟨hpos, hle⟩ := inputConsumed_processed hphase hst hlast
      have hle := hle.resolve_right hbare
      rw [hlast, Option.map_some, Option.getD_some] at hanswered
      rw [hrespond, hanswered]
      obtain ⟨k, hk⟩ := Int.eq_ofNat_of_zero_le (Int.le_of_lt hpos)
      rw [hk] at hle ⊢
      obtain ⟨hbounded, hmoved⟩ := consume_spec hphase hst (Int.ofNat_le.mp hle)
        (a.thread.afterProcess services bufferSize).store
        (a.thread.afterProcess services bufferSize).executed
        ((a.thread.afterProcess services bufferSize).written ++ bytes)
      refine ⟨settled_of_running (.inr hphase), fun hreading => ?_, fun _ => ⟨hbounded, ?_⟩⟩
      · exact absurd (hphase.symm.trans hreading) (by decide)
      · have hleft := congrArg List.length hmoved
        rw [List.length_drop] at hleft
        apply (congrArg (fun left : Nat => a.consumed + k + (left : Int)) hleft).trans
        simp only
        omega
  | exit =>
    simp only [hresult] at hround
    rw [hround]
    exact accounts_of_ended (.inr rfl)
  | bufferOverflow =>
    simp only [hresult] at hreturns
  | uncaught e =>
    simp only [hresult] at hreturns

/-- The activation after the thread has gone on by itself. -/
def advance (services : Services σ) (bufferSize : Nat) (a : Activation σ) : Activation σ where
  thread := a.thread.advance services bufferSize
  read := a.read
  consumed := a.consumedAfter services bufferSize .advance

theorem outputTooLarge_released (bufferSize : Nat) (st : WorkThread σ) :
    (st.outputTooLarge bufferSize).Released := by
  unfold outputTooLarge
  split
  · exact .inl rfl
  · exact .inr rfl

theorem Accounts.advance (h : a.Accounts) (hsettles : a.thread.Settles services bufferSize) :
    (a.advance services bufferSize).Accounts := by
  unfold Activation.advance consumedAfter WorkThread.advance
  cases hphase : a.thread.phase with
  | processing =>
    by_cases hne : a.thread.unconsumed = []
    · obtain ⟨hst, hcount⟩ := h.processing hphase
      rw [hne, List.length_nil] at hcount
      simp only [hne, ne_eq, not_true_eq_false, and_false, if_false, round_of_empty hphase hst hne]
      refine accounts_of_settled (fun _ => ?_) (by simp) (by simp)
      simpa using hcount
    · simp only [ne_eq, hne, not_false_eq_true, and_true, if_true]
      exact h.round hphase hne hsettles
  | reading =>
    simp only [reduceCtorEq, false_and, if_false]
    split
    case isFalse => exact h
    case isTrue hfull =>
      obtain ⟨-, -, hcount⟩ := h.reading hphase
      unfold inputTooLarge
      split
      case isTrue => exact accounts_of_ended (.inl rfl)
      case isFalse hsmall =>
        have hzero : bufferSize = 0 := by
          by_contra hne
          exact hsmall (hsettles.full hphase hfull (Nat.pos_of_ne_zero hne))
        have hreleased := outputTooLarge_released bufferSize a.thread
        refine accounts_of_settled (fun _ => ?_) ?_ ?_
        · simp only
          omega
        · rcases hreleased with hr | hr <;> simp [hr]
        · rcases hreleased with hr | hr <;> simp [hr]
  | waiting | closed | dead | exited =>
    simp only [reduceCtorEq, false_and, if_false]
    exact h

/-- Every event keeps count of the input, as long as the thread goes on without loss. -/
theorem Accounts.step (h : a.Accounts) {e : Event σ} {a' : Activation σ}
    (hsettles : e = .thread .advance → a.thread.Settles services bufferSize)
    (hstep : a.step services bufferSize e = some a') : a'.Accounts := by
  cases e with
  | writeFails store written =>
    simp only [Activation.step, Option.ite_none_right_eq_some, Option.some.injEq] at hstep
    obtain ⟨-, rfl⟩ := hstep
    exact accounts_of_ended (.inl rfl)
  | thread e =>
    simp only [Activation.step, Option.map_eq_some_iff] at hstep
    obtain ⟨thread, hthread, rfl⟩ := hstep
    cases e with
    | advance =>
      simp only [WorkThread.step, Option.some.injEq] at hthread
      rw [← hthread]
      exact h.advance (hsettles rfl)
    | activate memory inPtr =>
      simp only [WorkThread.step, Option.ite_none_right_eq_some, Option.some.injEq] at hthread
      obtain ⟨⟨-, hptr⟩, rfl⟩ := hthread
      exact ⟨settled_of_running (.inl rfl),
        fun _ => ⟨hptr, rfl, by simp [consumedAfter, readAfter]⟩, by simp⟩
    | read bytes =>
      simp only [WorkThread.step, Option.ite_none_right_eq_some, Option.some.injEq] at hthread
      obtain ⟨⟨-, hphase, -, -⟩, rfl⟩ := hthread
      obtain ⟨hptr, hposition, hcount⟩ := h.reading hphase
      refine ⟨settled_of_running (.inr rfl), by simp, fun _ => ⟨⟨hptr, ?_, Int.le_refl 0, ?_⟩, ?_⟩⟩
      · simp only [hposition]
      · exact Int.natCast_nonneg _
      · simp only [consumedAfter, readAfter, unconsumed, Memory.length_slice]
        omega
    | readNothing =>
      simp only [WorkThread.step, Option.ite_none_right_eq_some, Option.some.injEq] at hthread
      obtain ⟨-, rfl⟩ := hthread
      exact h
    | hangUp =>
      simp only [WorkThread.step, Option.ite_none_right_eq_some, Option.some.injEq] at hthread
      obtain ⟨-, rfl⟩ := hthread
      exact accounts_of_ended (.inl rfl)

/-- A release with bytes in the buffer that no command has consumed. -/
theorem not_settled_of_left (hreleased : a.thread.Released) {left : Nat} (hpos : 0 < left)
    (hcount : a.consumed + left = a.read) : ¬ a.Settled := by
  intro hsettled
  have hall := hsettled hreleased
  omega

/-- A full input buffer that is too small for the answer to this. -/
theorem Accounts.not_settled_of_full (h : a.Accounts) (hphase : a.thread.phase = .reading)
    (hfull : a.thread.inputSize = bufferSize) (hpos : 0 < bufferSize)
    (hsmall : ¬ Errors.INPUT_TOO_LARGE.length ≤ bufferSize) :
    ¬ (a.advance services bufferSize).Settled := by
  obtain ⟨-, -, hcount⟩ := h.reading hphase
  have hthread : a.thread.advance services bufferSize = a.thread.outputTooLarge bufferSize := by
    simp only [WorkThread.advance, hphase, hfull, if_true, inputTooLarge, if_neg hsmall]
  unfold Activation.advance consumedAfter
  rw [hthread]
  apply not_settled_of_left (outputTooLarge_released bufferSize a.thread) hpos
  simpa [hphase, hfull] using hcount

/-- A call of `process` that throws, or a response that does not fit. -/
theorem Accounts.not_settled_of_throw (h : a.Accounts) (hphase : a.thread.phase = .processing)
    (hne : a.thread.unconsumed ≠ [])
    (hthrows : ¬ match (a.thread.processed services bufferSize).result with
      | .incomplete | .exit => True
      | .response bytes => bytes.length ≤ bufferSize
      | .bufferOverflow | .uncaught _ => False) :
    ¬ (a.advance services bufferSize).Settled := by
  obtain ⟨hst, hcount⟩ := h.processing hphase
  have hround := round_of_ne_nil services bufferSize hphase hst hne
  have hanswered : a.thread.answered services bufferSize = 0 := by
    refine answered_eq_zero fun bytes hresult => ?_
    simp only [hresult] at hthrows
    omega
  have hreleased : (a.thread.round services bufferSize).Released := by
    rw [hround]
    cases hresult : (a.thread.processed services bufferSize).result with
    | incomplete | exit => simp [hresult] at hthrows
    | response bytes =>
      simp only [hresult] at hthrows
      right
      simp only [respond, gt_iff_lt, Nat.lt_of_not_le hthrows, if_true]
    | bufferOverflow => exact outputTooLarge_released bufferSize _
    | uncaught e => exact .inr rfl
  have hthread : a.thread.advance services bufferSize = a.thread.round services bufferSize := by
    simp only [WorkThread.advance, hphase]
  unfold Activation.advance consumedAfter
  rw [hthread]
  apply not_settled_of_left hreleased (List.length_pos_of_ne_nil hne)
  simpa [hphase, hne, hanswered] using hcount

end Activation

theorem WorkThread.processed_of_bareGet {σ : Type} (services : Services σ) (bufferSize : Nat)
    {st : WorkThread σ} (hphase : st.phase = .processing) (hst : st.Bounded)
    (hbare : Parsing.BareGet st.unconsumed) :
    ∃ cmd : MemcachedCommand, (st.processed services bufferSize).result = .response END ∧
      (st.processed services bufferSize).lastCommand = some cmd ∧ cmd.cls ≠ .QUIT ∧
      cmd.inputConsumed = st.inputSize - st.consumed + 1 := by
  have hle := hst.consumed_le
  have hpos := hst.inPtr_pos
  have hnonneg := hst.consumed_nonneg
  have hptr : 0 < st.inPtr + st.consumed := by omega
  have hsize : st.inputSize - st.consumed = ((st.inputSize - st.consumed).toNat : Int) := by omega
  rw [unconsumed_eq hphase] at hbare
  unfold processed
  generalize (st.inputSize - st.consumed).toNat = size at hsize hbare ⊢
  obtain ⟨cls, hcls, hparse, hconsumed⟩ := hbare.parse_eq (U := services.utils)
  have hsafe := (Parsing.safeSlices_of_parse hparse).isMemorySafe hptr
  refine ⟨{ cls, consumed := 2 }, ?_, ?_, ?_, ?_⟩
  · rw [hsize, Parsing.process_eq_of_isMemorySafe hparse hsafe]
    rcases hcls with rfl | rfl <;> rfl
  · rw [hsize, Parsing.process_eq_of_isMemorySafe hparse hsafe]
  · rcases hcls with rfl | rfl <;> simp
  · rw [hsize, hconsumed]

namespace Activation

open WorkThread

variable {σ : Type} {services : Services σ} {bufferSize : Nat} {a : Activation σ}

/-- A bare get at the end of the input counts one byte more than there is. -/
theorem Accounts.not_settled_of_bareGet (h : a.Accounts) (hphase : a.thread.phase = .processing)
    (hbare : Parsing.BareGet a.thread.unconsumed) (hfits : END.length ≤ bufferSize) :
    ¬ ((a.advance services bufferSize).advance services bufferSize).Settled := by
  obtain ⟨hst, hcount⟩ := h.processing hphase
  have hlength := length_unconsumed hphase hst
  have hne : a.thread.unconsumed ≠ [] := by
    obtain ⟨cls, -, hbytes⟩ := hbare
    simp [hbytes, CRLF]
  obtain ⟨cmd, hresult, hlast, hquit, hconsumed⟩ :=
    processed_of_bareGet services bufferSize hphase hst hbare
  have hanswered := answered_eq hst hresult hfits
  rw [hlast, Option.map_some, Option.getD_some] at hanswered
  have hround : a.thread.advance services bufferSize =
      { a.thread.afterProcess services bufferSize with
        written := (a.thread.afterProcess services bufferSize).written ++ END
        consumed := a.thread.inputSize + 1 } := by
    have hsum : a.thread.consumed + cmd.inputConsumed = a.thread.inputSize + 1 := by omega
    simp only [WorkThread.advance, hphase, round_of_ne_nil services bufferSize hphase hst hne,
      hresult, respond, gt_iff_lt, Nat.not_lt.mpr hfits, if_false, hlast, hquit, afterProcess, hsum]
  have hlast : (a.advance services bufferSize).advance services bufferSize =
      { thread := { a.thread.advance services bufferSize with phase := .waiting }
        read := a.read
        consumed := a.consumed + cmd.inputConsumed } := by
    have hphase' : (a.thread.advance services bufferSize).phase = .processing := by
      rw [hround]
      exact hphase
    have hend : ¬ (a.thread.advance services bufferSize).consumed <
        (a.thread.advance services bufferSize).inputSize := by
      rw [hround]
      simp only [afterProcess]
      omega
    have hempty : (a.thread.advance services bufferSize).unconsumed = [] := by
      rw [unconsumed_eq hphase']
      have hzero : ((a.thread.advance services bufferSize).inputSize -
          (a.thread.advance services bufferSize).consumed).toNat = 0 := by omega
      rw [hzero]
      rfl
    have hagain : (a.thread.advance services bufferSize).advance services bufferSize =
        { a.thread.advance services bufferSize with phase := .waiting } := by
      rw [WorkThread.advance, hphase']
      simp only [WorkThread.round, if_neg hend]
    unfold Activation.advance consumedAfter
    simp only [hagain, hempty, hphase, hne, hanswered, ne_eq, not_true_eq_false, and_false,
      not_false_eq_true, and_self, if_false, if_true]
  rw [hlast]
  intro hsettled
  have hall := hsettled (.inl rfl)
  simp only at hall
  omega

/-- A thread that goes on with loss releases the key with a wrong count. -/
theorem Accounts.exists_not_settled (h : a.Accounts)
    (hnot : ¬ a.thread.Settles services bufferSize) :
    ∃ n, ¬ ((Activation.advance services bufferSize)^[n] a).Settled := by
  by_contra hall
  have hsettled (n : Nat) : ((Activation.advance services bufferSize)^[n] a).Settled := by
    by_contra hn
    exact hall ⟨n, hn⟩
  refine hnot ⟨?_, ?_, ?_⟩
  · intro hphase hbare
    by_cases hfits : END.length ≤ bufferSize
    · exact h.not_settled_of_bareGet hphase hbare hfits (hsettled 2)
    · have hne : a.thread.unconsumed ≠ [] := by
        obtain ⟨cls, -, hbytes⟩ := hbare
        simp [hbytes, CRLF]
      obtain ⟨cmd, hresult, -⟩ := processed_of_bareGet services bufferSize hphase
        (h.processing hphase).1 hbare
      refine h.not_settled_of_throw hphase hne ?_ (hsettled 1)
      rw [hresult]
      exact hfits
  · intro hphase hne
    by_contra hthrows
    exact h.not_settled_of_throw hphase hne hthrows (hsettled 1)
  · intro hphase hfull hpos
    by_contra hsmall
    exact h.not_settled_of_full hphase hfull hpos hsmall (hsettled 1)

/-- In every run in which the thread goes on without loss, a key is released with an open channel
only if all that was read is consumed by commands that were executed and answered; once the thread
goes on with loss, it releases the key otherwise. -/
theorem released_settled {s : σ}
    (hrun : Runs (step services bufferSize)
      (fun a e => e = .thread .advance → a.thread.Settles services bufferSize)
      { thread := { store := s } } a) :
    a.Settled ∧ (¬ a.thread.Settles services bufferSize →
      ∃ n, ¬ ((Activation.advance services bufferSize)^[n] a).Settled) := by
  have hstart : Accounts { thread := ({ store := s } : WorkThread σ) } :=
    accounts_of_settled (fun _ => rfl) (by simp) (by simp)
  have haccounts := hrun.invariant hstart fun h hsettles hstep => h.step hsettles hstep
  exact ⟨haccounts.settled, haccounts.exists_not_settled⟩

theorem released_settled_delete :
    ∃ a : Activation ListStore, a.thread.phase = .waiting ∧ a.read = 10 ∧ a.Settled ∧
      (¬ a.thread.Settles listServices 64 →
        ∃ n, ¬ ((Activation.advance listServices 64)^[n] a).Settled) := by
  let start : Activation ListStore := { thread := { store := {} } }
  let bytes := ascii "delete k\r\n"
  obtain ⟨a, ha⟩ : ∃ a, follow (step listServices 64) start
      [.thread (.activate (fun _ => 0) 1), .thread (.read bytes)] = some a := ⟨_, rfl⟩
  have hphase : a.thread.phase = .processing := by cases ha; rfl
  have hinput : a.thread.unconsumed = bytes := by cases ha; decide +kernel
  have hresult : (a.thread.processed listServices 64).result = .response NOT_FOUND := by
    cases ha
    decide +kernel
  have hsettles : a.thread.Settles listServices 64 := by
    refine ⟨fun _ hbare => ?_, fun _ _ => ?_, by simp [hphase]⟩
    · obtain ⟨cls, hcls, hbytes⟩ := hbare
      rw [hinput] at hbytes
      rcases hcls with rfl | rfl <;> exact absurd hbytes (by decide)
    · rw [hresult]
      decide
  have hrest : (a.advance listServices 64).thread.unconsumed = [] := by cases ha; decide +kernel
  have hsettles' : (a.advance listServices 64).thread.Settles listServices 64 := by
    have hphase' : (a.advance listServices 64).thread.phase = .processing := by
      cases ha
      decide +kernel
    refine ⟨fun _ hbare => ?_, fun _ hne => absurd hrest hne, by simp [hphase']⟩
    obtain ⟨cls, -, hbytes⟩ := hbare
    simp [hrest, CRLF] at hbytes
  have hrun : Runs (step listServices 64)
      (fun a e => e = .thread .advance → a.thread.Settles listServices 64) start
      ((a.advance listServices 64).advance listServices 64) := by
    have hreads := runs_of_follow ha
      (by simp : ∀ e ∈ _, ∀ a, e = .thread .advance → a.thread.Settles listServices 64)
    exact .tail (.tail hreads ⟨.thread .advance, fun _ => hsettles, rfl⟩)
      ⟨.thread .advance, fun _ => hsettles', rfl⟩
  refine ⟨_, ?_, ?_, released_settled hrun⟩
  · cases ha
    decide +kernel
  · cases ha
    rfl

/-- A reply that is too large for the output buffer loses the requests behind it. -/
theorem not_settled_get_version :
    ¬ ∀ a, Runs (step listServices 128) (fun _ _ => True) { thread := { store :=
        { items := [(ascii "k", { value := some (List.replicate 200 0) })] } } } a →
      a.Settled := by
  intro hsettled
  obtain ⟨a, ha⟩ : ∃ a, follow (step listServices 128) { thread := { store :=
        { items := [(ascii "k", { value := some (List.replicate 200 0) })] } } }
      [.thread (.activate (fun _ => 0) 1), .thread (.read (ascii "get k\r\nversion\r\n"))] =
        some a := ⟨_, rfl⟩
  have hreads := runs_of_follow ha (fun _ _ _ => trivial : ∀ e ∈ _, ∀ _, True)
  have hrun := hreads.tail (c := a.advance listServices 128) ⟨.thread .advance, trivial, rfl⟩
  have hreleased : (a.advance listServices 128).thread.phase = .waiting := by
    cases ha
    decide +kernel
  have hcount : (a.advance listServices 128).consumed ≠ (a.advance listServices 128).read := by
    cases ha
    decide +kernel
  exact hcount (hsettled _ hrun (.inl hreleased))

end Activation

end Memcarrot
