import Memcarrot.Incremental.Verdict
import Mathlib.Data.Int.Basic

open Incremental

namespace RawMemory

/-- Memory as raw addresses see it: every address holds a byte, allocated or not. -/
abbrev Memory := Int → UInt8

/-- The `n` bytes from address `ptr` on. -/
def Memory.slice (m : Memory) (ptr : Int) : Nat → List UInt8
  | 0 => []
  | n + 1 => m ptr :: m.slice (ptr + 1) n

@[simp] theorem Memory.length_slice (m : Memory) (ptr : Int) (n : Nat) :
    (m.slice ptr n).length = n := by
  induction n generalizing ptr with
  | zero => rfl
  | succ n ih => simp [Memory.slice, ih]

theorem Memory.slice_add (m : Memory) (ptr : Int) (n k : Nat) :
    m.slice ptr (n + k) = m.slice ptr n ++ m.slice (ptr + n) k := by
  induction n generalizing ptr with
  | zero => simp [Memory.slice]
  | succ n ih =>
    have hptr : ptr + 1 + (n : Int) = ptr + ((n + 1 : Nat) : Int) := by omega
    rw [show n + 1 + k = n + k + 1 by omega]
    simp only [Memory.slice, ih, hptr, List.cons_append]

theorem Memory.slice_congr {m m' : Memory} {ptr : Int} {n : Nat}
    (h : ∀ a, ptr ≤ a → a < ptr + n → m a = m' a) : m.slice ptr n = m'.slice ptr n := by
  induction n generalizing ptr with
  | zero => rfl
  | succ n ih =>
    simp only [Memory.slice]
    rw [h ptr (by omega) (by omega), ih (fun a hlo hhi => h a (by omega) (by omega))]

/-- A part of the bytes of a slice is the slice at its offset. -/
theorem Memory.slice_middle {m : Memory} {ptr : Int} {n : Nat} {front part back : List UInt8}
    (h : m.slice ptr n = front ++ (part ++ back)) :
    m.slice (ptr + front.length) part.length = part := by
  have hlength : n = front.length + (part.length + back.length) := by
    simpa using congrArg List.length h
  rw [hlength, Memory.slice_add, Memory.slice_add] at h
  exact (List.append_inj (List.append_inj h (by simp)).2 (by simp)).1

theorem Memory.slice_front {m : Memory} {ptr : Int} {n : Nat} {front back : List UInt8}
    (h : m.slice ptr n = front ++ back) : m.slice ptr front.length = front := by
  have hfront : m.slice ptr n = [] ++ (front ++ back) := h
  simpa using Memory.slice_middle hfront

/-- Memory that holds the given bytes from address `base` on and zeros elsewhere. -/
def Memory.ofBytes (base : Int) (bytes : List UInt8) : Memory := fun a =>
  if base ≤ a then bytes.getD (a - base).toNat 0 else 0

theorem Memory.slice_ofBytes (base : Int) (front bytes : List UInt8) :
    (Memory.ofBytes base (front ++ bytes)).slice (base + front.length) bytes.length = bytes := by
  induction bytes generalizing front with
  | nil => rfl
  | cons b bs ih =>
    have hnext := ih (front ++ [b])
    have hptr : base + ((front ++ [b]).length : Int) = base + front.length + 1 := by
      simp only [List.length_append, List.length_singleton]
      omega
    simp only [List.append_assoc, List.singleton_append, hptr] at hnext
    rw [List.length_cons, Memory.slice, hnext]
    have hbase : base ≤ base + (front.length : Int) := by omega
    have hindex : (base + (front.length : Int) - base).toNat = front.length := by omega
    simp only [Memory.ofBytes, hbase, if_true, hindex]
    simp

/-- A program that computes from bytes it reads at raw addresses. It ends in a verdict. -/
inductive Access (ε α : Type) where
  | halt (verdict : Verdict ε α)
  | toByte (ptr : Int) (next : UInt8 → Access ε α)

namespace Access

def bind {ε α β : Type} : Access ε α → (α → Access ε β) → Access ε β
  | .halt .incomplete, _ => .halt .incomplete
  | .halt (.failed e), _ => .halt (.failed e)
  | .halt (.done a), f => f a
  | .toByte ptr next, f => .toByte ptr fun b => (next b).bind f

instance {ε : Type} : Monad (Access ε) where
  pure a := .halt (.done a)
  bind := Access.bind

/-- Ends the program with the verdict that the input is incomplete. -/
def incomplete {ε α : Type} : Access ε α := .halt .incomplete

def throw {ε α : Type} (e : ε) : Access ε α := .halt (.failed e)

def byte {ε : Type} (ptr : Int) : Access ε UInt8 := .toByte ptr fun b => .halt (.done b)

/-- Reads the `n` bytes from address `ptr` on. -/
def bytes {ε : Type} (ptr : Int) : Nat → Access ε (List UInt8)
  | 0 => pure []
  | n + 1 => do
    let b ← byte ptr
    let bs ← bytes (ptr + 1) n
    return b :: bs

/-- Runs a program under a handler that replaces every error by another one. -/
def rethrow {ε α : Type} (handler : ε → ε) : Access ε α → Access ε α
  | .halt v => .halt (v.rethrow handler)
  | .toByte ptr next => .toByte ptr fun b => (next b).rethrow handler

def run {ε α : Type} (m : Memory) : Access ε α → Verdict ε α
  | .halt v => v
  | .toByte ptr next => (next (m ptr)).run m

/-- The addresses a program reads, in order. -/
def reads {ε α : Type} (m : Memory) : Access ε α → List Int
  | .halt _ => []
  | .toByte ptr next => ptr :: (next (m ptr)).reads m

@[simp] theorem run_pure {ε α : Type} (m : Memory) (a : α) :
    (pure a : Access ε α).run m = .done a := rfl

@[simp] theorem run_bind {ε α β : Type} (m : Memory) (p : Access ε α) (f : α → Access ε β) :
    (p >>= f).run m = p.run m >>= fun a => (f a).run m := by
  change (p.bind f).run m = _
  induction p with
  | halt v => cases v <;> rfl
  | toByte ptr next ih => exact ih (m ptr)

theorem reads_bind {ε α β : Type} (m : Memory) (p : Access ε α) (f : α → Access ε β) :
    (p >>= f).reads m = p.reads m ++
      match p.run m with
      | .done a => (f a).reads m
      | _ => [] := by
  change (p.bind f).reads m = _
  induction p with
  | halt v => cases v <;> rfl
  | toByte ptr next ih => simp [Access.bind, reads, run, ih (m ptr)]

@[simp] theorem run_rethrow {ε α : Type} (m : Memory) (handler : ε → ε) (p : Access ε α) :
    (p.rethrow handler).run m = (p.run m).rethrow handler := by
  induction p with
  | halt v => rfl
  | toByte ptr next ih => exact ih (m ptr)

@[simp] theorem reads_rethrow {ε α : Type} (m : Memory) (handler : ε → ε) (p : Access ε α) :
    (p.rethrow handler).reads m = p.reads m := by
  induction p with
  | halt v => rfl
  | toByte ptr next ih => simp [rethrow, reads, ih]

/-- A program depends on memory only through the bytes it reads. -/
theorem run_eq_of_agree {ε α : Type} {m m' : Memory} {p : Access ε α}
    (h : ∀ a ∈ p.reads m, m' a = m a) : p.run m' = p.run m := by
  induction p with
  | halt v => rfl
  | toByte ptr next ih =>
    have hptr : m' ptr = m ptr := h ptr (by simp [reads])
    simp only [run, hptr]
    exact ih (m ptr) fun a ha => h a (by simp [reads, ha])

/-- The program reads only addresses in `[lo, hi)` and ends as the verdict `v` does, on values
related by `R`. -/
structure Simulates {ε α β : Type} (m : Memory) (lo hi : Int) (R : α → β → Prop)
    (p : Access ε α) (v : Verdict ε β) : Prop where
  reads_inside : ∀ a ∈ p.reads m, lo ≤ a ∧ a < hi
  verdict : Verdict.Rel R (p.run m) v

namespace Simulates

variable {ε α β : Type} {m : Memory} {lo hi : Int} {R : α → β → Prop}

theorem halt {v : Verdict ε α} {w : Verdict ε β} (h : Verdict.Rel R v w) :
    Simulates m lo hi R (.halt v) w :=
  ⟨by simp [reads], h⟩

theorem pure {a : α} {b : β} (h : R a b) :
    Simulates m lo hi R (Pure.pure a : Access ε α) (.done b) :=
  .halt (.done h)

theorem incomplete : Simulates m lo hi R (Access.incomplete : Access ε α) .incomplete :=
  .halt .incomplete

theorem throw (e : ε) : Simulates m lo hi R (Access.throw e : Access ε α) (.failed e) :=
  .halt (.failed e)

theorem byte {ptr : Int} (hlo : lo ≤ ptr) (hhi : ptr < hi) :
    Simulates m lo hi Eq (Access.byte ptr : Access ε UInt8) (.done (m ptr)) :=
  ⟨by simp [Access.byte, reads, hlo, hhi], .done rfl⟩

theorem bind {α' β' : Type} {S : α' → β' → Prop} {p : Access ε α} {v : Verdict ε β}
    {f : α → Access ε α'} {g : β → Verdict ε β'} (h : Simulates m lo hi R p v)
    (hfg : ∀ a b, R a b → v = .done b → Simulates m lo hi S (f a) (g b)) :
    Simulates m lo hi S (p >>= f) (v >>= g) := by
  obtain ⟨hreads, hrel⟩ := h
  cases hp : p.run m with
  | incomplete =>
    rw [hp] at hrel
    cases hrel
    exact ⟨by simpa [reads_bind, hp] using hreads, by simpa [hp] using .incomplete⟩
  | failed e =>
    rw [hp] at hrel
    cases hrel
    exact ⟨by simpa [reads_bind, hp] using hreads, by simpa [hp] using .failed e⟩
  | done a =>
    rw [hp] at hrel
    cases hrel with
    | done hab =>
      obtain ⟨hnext, hrelNext⟩ := hfg a _ hab rfl
      refine ⟨?_, by simpa [hp] using hrelNext⟩
      intro x hx
      rw [reads_bind, hp, List.mem_append] at hx
      exact hx.elim (hreads x) (hnext x)

/-- A step that always delivers a known value is followed by what comes after it. -/
theorem step {α' β' : Type} {S : α' → β' → Prop} {p : Access ε α} {a : α}
    {f : α → Access ε α'} {w : Verdict ε β'} (h : Simulates m lo hi Eq p (.done a))
    (hf : Simulates m lo hi S (f a) w) : Simulates m lo hi S (p >>= f) w := by
  have hbind := h.bind (g := fun _ => w) (f := f) (S := S) fun x b hxb hb => by
    cases hb
    rw [hxb]
    exact hf
  simpa using hbind

/-- A step that ends the program with an incomplete input ends what it is a part of. -/
theorem stop {α' β' : Type} {S : α' → β' → Prop} {p : Access ε α} {f : α → Access ε α'}
    (h : Simulates m lo hi R p (.incomplete : Verdict ε β)) :
    Simulates m lo hi S (p >>= f) (.incomplete : Verdict ε β') :=
  h.bind (g := fun _ => .incomplete) fun _ _ _ hdone => by cases hdone

theorem rethrow {p : Access ε α} {v : Verdict ε β} (h : Simulates m lo hi R p v)
    (handler : ε → ε) : Simulates m lo hi R (p.rethrow handler) (v.rethrow handler) :=
  ⟨by simpa using h.reads_inside, by simpa using h.verdict.rethrow handler⟩

theorem bytes {ptr : Int} {n : Nat} (hlo : lo ≤ ptr) (hhi : ptr + n ≤ hi) :
    Simulates m lo hi Eq (Access.bytes ptr n : Access ε (List UInt8)) (.done (m.slice ptr n)) := by
  induction n generalizing ptr with
  | zero => exact .pure rfl
  | succ n ih =>
    apply (Simulates.byte hlo (by omega)).step
    exact (ih (by omega) (by omega)).step (.pure rfl)

end Simulates

end Access

end RawMemory
