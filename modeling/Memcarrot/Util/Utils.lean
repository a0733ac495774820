import Mathlib.Algebra.Group.Int.Defs
import Mathlib.Algebra.Group.Nat.Defs
import Memcarrot.RawMemory.Views

open Incremental RawMemory

namespace Memcarrot

/-- The bytes of an ASCII text. -/
def ascii (text : String) : List UInt8 := text.toList.map fun c => UInt8.ofNat c.toNat

def SP : UInt8 := 0x20

def CR : UInt8 := 0x0D

def LF : UInt8 := 0x0A

/-- The first letter of the word noreply. -/
def LOWER_N : UInt8 := 0x6E

def CRLF : List UInt8 := [CR, LF]

/-- What ends a parse by an exception. `runaway` is a token scan that has passed its limit
without stopping and walks through foreign memory. -/
inductive Thrown where
  | illegalFormat (msg : String)
  | unsupportedCommand (name : List UInt8)
  | numberFormat
  | negativeArraySize
  | runaway
  deriving DecidableEq, Repr

/-- The helpers of the cache library that commands call on byte ranges. `strToLongDirect` gives
`none` where it throws NumberFormatException. -/
structure CacheUtils where
  compareTo : List UInt8 → List UInt8 → Int
  compareTo_eq_zero_iff : ∀ left right, left.length = right.length →
    (compareTo left right = 0 ↔ left = right)
  strToLongDirect : List UInt8 → Option Int
  strToLongDirect_long : ∀ token value, strToLongDirect token = some value →
    -2 ^ 63 ≤ value ∧ value < 2 ^ 63
  longToStrDirect : Int → List UInt8

def isSpace (b : UInt8) : Bool := b == SP

/-- Neither a space nor the CR that ends a line. -/
def isTokenByte (b : UInt8) : Bool := b != SP && b != CR

namespace Utils

/-- The loop of both token scans: `off` moves over skipped bytes and the value is -1 once it
meets the limit. The fuel only runs out where the limit is negative. -/
def scanLoop (skip : UInt8 → Bool) (ptr limit : Int) : Nat → Int → Access Thrown Int
  | 0, _ => .throw .runaway
  | fuel + 1, off => do
    let b ← .byte (ptr + off)
    if skip b then
      if off + 1 = limit then return -1 else scanLoop skip ptr limit fuel (off + 1)
    else return off

def scan (skip : UInt8 → Bool) (ptr limit : Int) : Access Thrown Int :=
  if limit = 0 then return -1 else scanLoop skip ptr limit (limit.toNat + 1) 0

def nextTokenStart (ptr limit : Int) : Access Thrown Int := scan isSpace ptr limit

def nextTokenEnd (ptr limit : Int) : Access Thrown Int := scan isTokenByte ptr limit

/-- The offset of the first byte that is not skipped, or -1. -/
def firstOffset (skip : UInt8 → Bool) (s : List UInt8) : Int :=
  if s.dropWhile skip = [] then -1 else (s.takeWhile skip).length

theorem scanLoop_simulates {m : Memory} {lo hi ptr limit : Int} (skip : UInt8 → Bool)
    (s : List UInt8) : ∀ (fuel : Nat) (off : Int), s ≠ [] → s.length < fuel → lo ≤ ptr + off →
      off + s.length = limit → Views m hi ⟨ptr + off, s⟩ →
      Access.Simulates m lo hi Eq (scanLoop skip ptr limit fuel off)
        (.done (if s.dropWhile skip = [] then -1 else off + (s.takeWhile skip).length)) := by
  induction s with
  | nil => intro fuel off hne; exact absurd rfl hne
  | cons b bs ih =>
    intro fuel off _ hfuel hlo hlimit hviews
    cases fuel with
    | zero => simp at hfuel
    | succ fuel =>
      have hat : At m lo hi ptr off ⟨ptr + off, b :: bs⟩ := ⟨rfl, hlo, hviews⟩
      apply hat.byte.step
      cases hskip : skip b with
      | false =>
        simp only [hskip, List.dropWhile_cons, List.takeWhile_cons]
        exact .pure (by simp)
      | true =>
        simp only [if_true, hskip, List.dropWhile_cons, List.takeWhile_cons]
        simp only [List.length_cons] at hfuel hlimit
        by_cases hend : off + 1 = limit
        · have hnil : bs = [] := List.eq_nil_of_length_eq_zero (by omega)
          simp only [hend, if_true, hnil]
          exact .pure (by simp)
        · rw [if_neg hend]
          have hne : bs ≠ [] := by
            rintro rfl
            simp at hlimit
            omega
          have htail : Views m hi ⟨ptr + (off + 1), bs⟩ := by
            rw [show ptr + (off + 1) = ptr + off + 1 by omega]
            exact hviews.tail
          have hcount : off + ((b :: bs.takeWhile skip).length : Int) =
              off + 1 + (bs.takeWhile skip).length := by
            simp only [List.length_cons]
            omega
          rw [hcount]
          exact ih fuel (off + 1) hne (by omega) (by omega) (by omega) htail

/-- Under a cursor the scan gives the offset of the first byte it does not skip. -/
theorem scan_simulates {m : Memory} {lo hi base off : Int} {c : Cursor UInt8} (limit : Int)
    (skip : UInt8 → Bool) (h : At m lo hi base off c) (hlimit : base + off + limit = hi) :
    Access.Simulates m lo hi Eq (scan skip (base + off) limit)
      (.done (firstOffset skip c.rest)) := by
  obtain ⟨hptr, hlow, hviews⟩ := h
  obtain ⟨ptr, rest⟩ := c
  have hends := hviews.ends
  simp only at hptr hlow hends
  have hlen : limit = rest.length := by omega
  unfold scan firstOffset
  by_cases hzero : limit = 0
  · have hnil : rest = [] := List.eq_nil_of_length_eq_zero (by omega)
    simp only [hzero, if_true, hnil]
    exact .pure (by simp)
  · rw [if_neg hzero]
    have hne : rest ≠ [] := by
      rintro rfl
      simp at hlen
      exact hzero hlen
    have hviews' : Views m hi ⟨base + off + 0, rest⟩ := by simpa [hptr] using hviews
    have hlo : lo ≤ base + off + 0 := by omega
    have hscan := scanLoop_simulates skip rest (limit.toNat + 1) 0 hne (by omega) hlo
      (by omega : 0 + (rest.length : Int) = limit) hviews'
    simpa using hscan

/-- `compareTo(ptr, len, word, len)`, where `word` is a constant of the class. -/
def compareTo (U : CacheUtils) (ptr : Int) (len : Nat) (word : List UInt8) :
    Access Thrown Int := do
  let bs ← .bytes ptr len
  return U.compareTo bs word

def strToLongDirect (U : CacheUtils) (ptr size : Int) : Access Thrown Int := do
  let token ← .bytes ptr size.toNat
  match U.strToLongDirect token with
  | some value => return value
  | none => .throw .numberFormat

end Utils

end Memcarrot
