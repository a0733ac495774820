import Mathlib.Logic.Relation
import Mathlib.Data.List.Infix

open Relation

namespace Incremental

/-- How requests are written as items, and what serving one gives: the output and the new store,
or nothing where it cannot be served. -/
structure Protocol (F β ω σ : Type) where
  items : F → List β
  serve : F → σ → Option (List ω × σ)

namespace Protocol

variable {F β ω σ : Type} (P : Protocol F β ω σ)

/-- The stream of a list of requests. -/
def stream (requests : List F) : List β := requests.flatMap P.items

/-- Serves requests one after the other. -/
def serveAll : List F → σ → Option (List ω × σ)
  | [], s => some ([], s)
  | f :: fs, s => do
    let (out, s) ← P.serve f s
    let (rest, s) ← serveAll fs s
    return (out ++ rest, s)

@[simp] theorem stream_nil : P.stream [] = [] := rfl

@[simp] theorem stream_cons (f : F) (fs : List F) : P.stream (f :: fs) = P.items f ++ P.stream fs :=
  rfl

@[simp] theorem stream_append (fs gs : List F) :
    P.stream (fs ++ gs) = P.stream fs ++ P.stream gs := by
  simp [stream]

theorem serveAll_append (fs gs : List F) (s : σ) :
    P.serveAll (fs ++ gs) s = do
      let (out, s) ← P.serveAll fs s
      let (rest, s) ← P.serveAll gs s
      return (out ++ rest, s) := by
  induction fs generalizing s with
  | nil => cases h : P.serveAll gs s <;> simp [serveAll, h]
  | cons f fs ih =>
    simp only [List.cons_append, serveAll, ih]
    cases P.serve f s with
    | none => rfl
    | some served =>
      obtain ⟨out, s⟩ := served
      simp only [Option.bind_eq_bind, Option.bind_some]
      cases P.serveAll fs s with
      | none => rfl
      | some served =>
        obtain ⟨out', s⟩ := served
        simp only [Option.bind_some, Option.pure_def]
        cases P.serveAll gs s <;> simp

theorem serve_of_serveAll {served todo : List F} {f : F} {s : σ} {result : List ω × σ}
    {output : List ω} {store : σ} (hall : P.serveAll (served ++ f :: todo) s = some result)
    (hserved : P.serveAll served s = some (output, store)) :
    ∃ out next, P.serve f store = some (out, next) ∧
      P.serveAll (served ++ [f]) s = some (output ++ out, next) := by
  rw [serveAll_append, hserved] at hall
  cases hserve : P.serve f store with
  | none => simp [serveAll, hserve] at hall
  | some step =>
    obtain ⟨out, next⟩ := step
    refine ⟨out, next, rfl, ?_⟩
    rw [serveAll_append, hserved]
    simp [serveAll, hserve]

/-- What the first requests put out comes first. -/
theorem prefix_of_serveAll {served requests : List F} {s : σ} {output : List ω} {store : σ}
    {result : List ω × σ} (hfront : served <+: requests)
    (hserved : P.serveAll served s = some (output, store))
    (hall : P.serveAll requests s = some result) : output <+: result.1 := by
  obtain ⟨todo, rfl⟩ := hfront
  rw [serveAll_append, hserved, Option.bind_eq_bind, Option.bind_some,
    Option.bind_eq_some_iff] at hall
  obtain ⟨⟨rest, last⟩, -, hresult⟩ := hall
  cases hresult
  exact List.prefix_append _ _

end Protocol

/-- The front of a stream that is received in pieces: the next request is there as a whole, or it
is cut off. -/
theorem prefix_stream_cases {F β ω σ : Type} (P : Protocol F β ω σ) {requests : List F}
    {input : List β} (h : input <+: P.stream requests) (hne : input ≠ []) :
    ∃ f todo, requests = f :: todo ∧
      ((∃ rest, input = P.items f ++ rest ∧ rest <+: P.stream todo) ∨
        (input <+: P.items f ∧ input ≠ P.items f)) := by
  cases requests with
  | nil => exact absurd (List.prefix_nil.mp h) hne
  | cons f todo =>
    refine ⟨f, todo, rfl, ?_⟩
    rw [P.stream_cons] at h
    rcases List.prefix_or_prefix_of_prefix h (List.prefix_append _ _) with hcut | ⟨rest, rfl⟩
    · by_cases heq : input = P.items f
      · exact .inl ⟨[], by simpa using heq, List.nil_prefix⟩
      · exact .inr ⟨hcut, heq⟩
    · exact .inl ⟨rest, rfl, (List.prefix_append_right_inj _).mp h⟩

/-- A connection that is served request by request: what has been received, what of it is not
consumed yet, the requests served and their outputs. -/
structure Session (F β ω σ : Type) where
  received : List β := []
  input : List β := []
  served : List F := []
  output : List ω := []
  store : σ

namespace Session

variable {F β ω σ : Type} {P : Protocol F β ω σ}

inductive Step (P : Protocol F β ω σ) : Session F β ω σ → Session F β ω σ → Prop where
  | receive (t : Session F β ω σ) (items : List β) :
      Step P t { t with received := t.received ++ items, input := t.input ++ items }
  | serve (t : Session F β ω σ) (f : F) (rest : List β) (out : List ω) (next : σ)
      (hinput : t.input = P.items f ++ rest) (hserve : P.serve f t.store = some (out, next)) :
      Step P t { t with
        input := rest, served := t.served ++ [f], output := t.output ++ out, store := next }

/-- What holds of a session at any time: nothing received is lost or served twice, and the output
and the store are those of the served requests alone. -/
structure Sound (P : Protocol F β ω σ) (s : σ) (t : Session F β ω σ) : Prop where
  received : t.received = P.stream t.served ++ t.input
  served : P.serveAll t.served s = some (t.output, t.store)

theorem Sound.start (s : σ) : Sound P s { store := s } := ⟨rfl, rfl⟩

theorem Sound.step {s : σ} {t t' : Session F β ω σ} (h : Sound P s t) (hstep : Step P t t') :
    Sound P s t' := by
  obtain ⟨hreceived, hserved⟩ := h
  cases hstep with
  | receive items => exact ⟨by simp [hreceived], hserved⟩
  | serve f rest out next hinput hserve =>
    refine ⟨?_, ?_⟩
    · simp [hreceived, hinput, Protocol.stream]
    · simp only [P.serveAll_append, hserved, Protocol.serveAll, hserve, Option.bind_eq_bind,
        Option.bind_some, Option.pure_def, List.append_nil]

theorem sound_of_run {s : σ} {t : Session F β ω σ}
    (h : ReflTransGen (Step P) { store := s } t) : Sound P s t := by
  induction h with
  | refl => exact .start s
  | tail _ hstep ih => exact ih.step hstep

end Session

end Incremental
