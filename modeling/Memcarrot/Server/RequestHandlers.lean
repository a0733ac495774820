import Mathlib.Logic.Function.Basic
import Memcarrot.Transition.Runs

namespace Memcarrot

/-- Where the selector thread stands in `read`, `submit` and `nextKey`: what it does next. -/
inductive SelectorThread (κ : Type) (n : Nat) where
  | select
  | inUse (key : κ)
  | isBusy (key : κ) (i : Nat)
  | setInUse (key : κ) (i : Fin n)
  | setBusy (key : κ) (i : Fin n)
  | compareAndSet (key : κ) (i : Fin n)
  deriving DecidableEq, Repr

/-- Where a worker stands in `run`: what it does next. The flag of the actions of the finally block
tells that they end the thread, since processing has thrown what is not caught inside. -/
inductive Worker (κ : Type) where
  | waitForKey
  | process (key : κ)
  | release (key : κ) (thrown : Bool)
  | clearNextKey (thrown : Bool)
  | clearBusy (thrown : Bool)
  | returned
  deriving DecidableEq, Repr

/-- The variables that the selector thread and the workers share, with where each of them stands.
The attachment of a key is `none` where it is null, else its flag inUse. The keys that were put
into the slot of a worker, and those it has taken from there, are kept as well. -/
structure RequestHandlers (κ : Type) (n : Nat) where
  selector : SelectorThread κ n := .select
  workers : Fin n → Worker κ := fun _ => .waitForKey
  attachment : κ → Option Bool := fun _ => none
  nextKey : Fin n → Option κ := fun _ => none
  busy : Fin n → Bool := fun _ => false
  submitted : Fin n → List κ := fun _ => []
  taken : Fin n → List κ := fun _ => []

namespace RequestHandlers

open Function

variable {κ : Type} [DecidableEq κ] {n : Nat}

/-- The next action of the selector thread for the key it has selected. -/
def selectorStep (st : RequestHandlers κ n) : RequestHandlers κ n :=
  match st.selector with
  | .select => st
  | .inUse key =>
    if st.attachment key = some true then { st with selector := .select }
    else { st with selector := .isBusy key 0 }
  | .isBusy key i =>
    if h : i < n then
      if st.busy ⟨i, h⟩ then { st with selector := .isBusy key (i + 1) }
      else { st with selector := .setInUse key ⟨i, h⟩ }
    else { st with selector := .isBusy key 0 }
  | .setInUse key i =>
    -- a new attachment is in use, too
    { st with attachment := update st.attachment key (some true), selector := .setBusy key i }
  | .setBusy key i =>
    { st with busy := update st.busy i true, selector := .compareAndSet key i }
  | .compareAndSet key i =>
    if st.nextKey i = none then
      { st with
        nextKey := update st.nextKey i (some key)
        submitted := update st.submitted i (st.submitted i ++ [key])
        selector := .select }
    else st

/-- The next action of a worker, other than the end of processing. -/
def workerStep (st : RequestHandlers κ n) (i : Fin n) : RequestHandlers κ n :=
  let goto (w : Worker κ) : Fin n → Worker κ := update st.workers i w
  match st.workers i with
  | .waitForKey =>
    match st.nextKey i with
    | none => st
    | some key =>
      { st with
        workers := goto (.process key)
        taken := update st.taken i (st.taken i ++ [key]) }
  | .process _ => st
  | .release key thrown =>
    if st.attachment key = none then
      -- NullPointerException
      { st with workers := goto .returned }
    else
      { st with
        attachment := update st.attachment key (some false)
        workers := goto (.clearNextKey thrown) }
  | .clearNextKey thrown =>
    { st with nextKey := update st.nextKey i none, workers := goto (.clearBusy thrown) }
  | .clearBusy thrown =>
    { st with
      busy := update st.busy i false
      workers := goto (if thrown then .returned else .waitForKey) }
  | .returned => st

/-- A worker that takes its first key allocates its buffers before the inner try: an
OutOfMemoryError ends the thread without its finally block. -/
def outOfMemory (st : RequestHandlers κ n) (i : Fin n) : Option (RequestHandlers κ n) :=
  match st.workers i, st.nextKey i, st.taken i with
  | .waitForKey, some key, [] =>
    some { st with
      workers := update st.workers i .returned
      taken := update st.taken i [key] }
  | _, _, _ => none

/-- The selector returns a key that is ready, the selector thread or a worker goes on by itself,
processing ends, or there is no memory for the buffers of a worker. -/
inductive Event (κ : Type) (n : Nat) where
  | select (key : κ)
  | selector
  | worker (i : Fin n)
  | finish (i : Fin n) (thrown : Bool)
  | outOfMemory (i : Fin n)

/-- The event ends the thread of a worker. -/
def Event.ends : Event κ n → Bool
  | .finish _ thrown => thrown
  | .outOfMemory _ => true
  | _ => false

/-- The state after an event, if it is possible before a shutdown. Processing may throw what is not
caught inside for the keys on which such requests arrive, and the direct memory may run out. -/
def step (mayThrow : κ → Bool) (mayRunOut : Bool) (st : RequestHandlers κ n) :
    Event κ n → Option (RequestHandlers κ n)
  | .select key =>
    match st.selector with
    | .select => some { st with selector := .inUse key }
    | _ => none
  | .selector => some st.selectorStep
  | .worker i => some (st.workerStep i)
  | .finish i thrown =>
    match st.workers i with
    | .process key =>
      if thrown = true ∧ mayThrow key = false then none
      else some { st with workers := update st.workers i (.release key thrown) }
    | _ => none
  | .outOfMemory i => if mayRunOut then st.outOfMemory i else none

/-- The states of the server before a shutdown. -/
def Reachable (mayThrow : κ → Bool) (mayRunOut : Bool) : RequestHandlers κ n → Prop :=
  Transition.Runs (step mayThrow mayRunOut) (fun _ _ => True) {}

end RequestHandlers

end Memcarrot
