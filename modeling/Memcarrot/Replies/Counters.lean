import Memcarrot.Commands.Execute
import Memcarrot.Support.ListStore

namespace Memcarrot

/-- The 64 bits of a counter as a long. -/
def toLong (v : Nat) : Int := (v : Int).bmod (2 ^ 64)

/-- The value of an item is a decimal in the range of the counters, or there is no item. -/
def IsCounter : Option (List UInt8) → Option Nat → Prop
  | none, none => True
  | some data, some v => Decimal.parseDigits data = some (v : Int) ∧ v < 2 ^ 64
  | _, _ => False

instance (value : Option (List UInt8)) (counter : Option Nat) :
    Decidable (IsCounter value counter) :=
  match value, counter with
  | none, none => .isTrue trivial
  | some _, some _ => inferInstanceAs (Decidable (_ ∧ _))
  | none, some _ | some _, none => .isFalse id

theorem IsCounter.eq_none {value : Option (List UInt8)} (h : IsCounter value none) :
    value = none := by
  cases value with
  | none => rfl
  | some data => exact absurd h id

theorem IsCounter.lt {value : Option (List UInt8)} {v : Nat} (h : IsCounter value (some v)) :
    v < 2 ^ 64 := by
  cases value with
  | none => exact absurd h id
  | some data => exact h.2

/-- What the store promises of incr or decr, where `find` is the record of a key and `next` the new
value of a counter: the bits of the new value are returned as a long, and -1 for an absent key. -/
structure Counts {σ : Type} (count : List UInt8 → Int → σ → Counted × σ)
    (find : List UInt8 → σ → Record) (next : Nat → Int → Nat) : Prop where
  found : ∀ {key delta s v}, IsCounter (find key s).value (some v) → 0 ≤ delta → delta < 2 ^ 63 →
    (count key delta s).1 = .value (toLong (next v delta))
  absent : ∀ {key delta s}, (find key s).value = none → (count key delta s).1 = .value (-1)

/-- The new value of a counter that is incremented wraps around at 2^64. -/
def INCR.next (v : Nat) (delta : Int) : Nat := (v + delta.toNat) % 2 ^ 64

/-- A counter is not decremented below zero. -/
def DECR.next (v : Nat) (delta : Int) : Nat := v - delta.toNat

/-- The new value that a request for a counter asks for. -/
def Operation.nextValue (op : Operation) (v : Nat) : Nat :=
  if op.cls = .INCR then INCR.next v op.value else DECR.next v op.value

/-- The reply for a counter is its new value, and NOT_FOUND exactly where there is none. -/
structure RepliesCounter (op : Operation) (counter : Option Nat) (outcome : Outcome) : Prop where
  value : ∀ v, counter = some v →
    outcome = .response (Decimal.toString (op.nextValue v) ++ CRLF)
  notFound : outcome = .response NOT_FOUND ↔ counter = none

theorem toLong_of_lt {v : Nat} (h : v < 2 ^ 63) : toLong v = v := by
  unfold toLong
  rw [Int.bmod_eq_of_le] <;> omega

theorem toLong_of_ge {v : Nat} (hlo : 2 ^ 63 ≤ v) (hhi : v < 2 ^ 64) :
    toLong v = (v : Int) - 2 ^ 64 := by
  have hrange : ((2 ^ 64 : Nat) : Int) = 18446744073709551616 := rfl
  unfold toLong
  rw [Int.bmod_def, hrange]
  split_ifs <;> omega

theorem Operation.nextValue_lt (op : Operation) {v : Nat} (hv : v < 2 ^ 64) :
    op.nextValue v < 2 ^ 64 := by
  unfold Operation.nextValue INCR.next DECR.next
  split_ifs
  · exact Nat.mod_lt _ (by decide)
  · omega

/-- A decimal number and a line end are other bytes than NOT_FOUND. -/
theorem toString_ne_notFound (value : Int) : Decimal.toString value ++ CRLF ≠ NOT_FOUND := by
  intro h
  have hword : Decimal.toString value = ascii "NOT_FOUND" :=
    List.append_cancel_right h
  have hletter : (0x4E : UInt8) ∈ Decimal.toString value := by
    rw [hword]
    decide
  rcases Decimal.eq_minus_or_isDigit hletter with h | h
  · exact absurd h (by decide)
  · exact absurd h (by decide)

section Replies

variable {σ : Type} {U : CacheUtils} {count : List UInt8 → Int → σ → Counted × σ}
  {find : List UInt8 → σ → Record} {next : Nat → Int → Nat} {op : Operation} {s : σ}

theorem INCR.outcome_of_value {result : Int} (hcounted : (count op.key op.value s).1 = .value result)
    (hnoreply : op.noreply = false) :
    (INCR.execute U count op s).outcome =
      .response (if result ≥ 0 then U.longToStrDirect result ++ CRLF else NOT_FOUND) := by
  unfold INCR.execute
  cases hrun : count op.key op.value s with
  | mk counted after =>
    rw [hrun] at hcounted
    cases hcounted
    simp [reply, hnoreply]

/-- The reply for a counter, as the sign of the long that the store returns decides it. -/
theorem INCR.outcome_execute (hcount : Counts count find next)
    (hprint : ∀ value, 0 ≤ value → value < 2 ^ 63 →
      U.longToStrDirect value = Decimal.toString value)
    (hnoreply : op.noreply = false) (hlo : 0 ≤ op.value) (hhi : op.value < 2 ^ 63) {v : Nat}
    (hcounter : IsCounter (find op.key s).value (some v)) (hnext : next v op.value < 2 ^ 64) :
    (INCR.execute U count op s).outcome = .response
      (if next v op.value < 2 ^ 63 then Decimal.toString (next v op.value) ++ CRLF
        else NOT_FOUND) := by
  rw [INCR.outcome_of_value (hcount.found hcounter hlo hhi) hnoreply]
  by_cases hsmall : next v op.value < 2 ^ 63
  · have hpos : (0 : Int) ≤ next v op.value := by omega
    rw [toLong_of_lt hsmall, if_pos hpos, if_pos hsmall, hprint _ hpos (by omega)]
  · have hneg := toLong_of_ge (Nat.not_lt.mp hsmall) hnext
    rw [if_neg (by omega), if_neg hsmall]

end Replies

/-- The reply for a counter is the documented one exactly if the new value is below 2^63: the store
returns its bits as a long, and a negative long is taken for the absence of the item. -/
theorem replies_counter_iff {σ : Type} {services : Services σ} {find : List UInt8 → σ → Record}
    (hincr : Counts services.support.incr find INCR.next)
    (hdecr : Counts services.support.decr find DECR.next)
    (hprint : ∀ value, 0 ≤ value → value < 2 ^ 63 →
      services.utils.longToStrDirect value = Decimal.toString value)
    {op : Operation} (hop : op.cls = .INCR ∨ op.cls = .DECR) (hnoreply : op.noreply = false)
    (hlo : 0 ≤ op.value) (hhi : op.value < 2 ^ 63) {s : σ} {counter : Option Nat}
    (hcounter : IsCounter (find op.key s).value counter) (outBufferSize : Int) :
    RepliesCounter op counter (op.execute services outBufferSize s).outcome ↔
      ∀ v, counter = some v → op.nextValue v < 2 ^ 63 := by
  have hexecute : (op.execute services outBufferSize s).outcome =
      (INCR.execute services.utils
        (if op.cls = .INCR then services.support.incr else services.support.decr) op s).outcome := by
    unfold Operation.execute
    rcases hop with hcls | hcls <;> simp [hcls]
  have hcount : Counts (if op.cls = .INCR then services.support.incr else services.support.decr)
      find (if op.cls = .INCR then INCR.next else DECR.next) := by
    split_ifs
    · exact hincr
    · exact hdecr
  rw [hexecute]
  cases counter with
  | none =>
    have houtcome :=
      INCR.outcome_of_value (U := services.utils) (hcount.absent hcounter.eq_none) hnoreply
    exact iff_of_true ⟨(fun v hv => nomatch hv), iff_of_true houtcome rfl⟩ fun v hv => nomatch hv
  | some v =>
    have hnext : op.nextValue v =
        (if op.cls = .INCR then INCR.next else DECR.next) v op.value := by
      unfold Operation.nextValue
      split_ifs <;> rfl
    have houtcome := INCR.outcome_execute hcount hprint hnoreply hlo hhi hcounter
      (hnext ▸ op.nextValue_lt hcounter.lt)
    rw [← hnext] at houtcome
    rw [houtcome]
    constructor
    · rintro h w ⟨⟩
      by_contra hlarge
      have hnotFound := h.notFound
      rw [if_neg hlarge] at hnotFound
      exact nomatch hnotFound.mp rfl
    · intro h
      rw [if_pos (h v rfl)]
      refine ⟨?_, iff_of_false (fun hnotFound => ?_) (by simp)⟩
      · rintro w ⟨⟩
        rfl
      · exact toString_ne_notFound _ (Outcome.response.inj hnotFound)

/-- The list store keeps counters modulo 2^64. -/
theorem ListStore.count_counts (change : Int → Int → Int) {next : Nat → Int → Nat}
    (hnext : ∀ v delta, v < 2 ^ 64 → 0 ≤ delta → delta < 2 ^ 63 →
      change delta (v : Nat) % 2 ^ 64 = next v delta) :
    Counts (fun key delta => ListStore.count (change delta) key) ListStore.find next where
  found := by
    intro key delta s v hcounter hlo hhi
    cases hdata : (ListStore.find key s).value with
    | none => simp [hdata, IsCounter] at hcounter
    | some data =>
      rw [hdata] at hcounter
      obtain ⟨hparse, hv⟩ := hcounter
      have hsigned : Decimal.parseSigned data = some (v : Int) := by
        cases data with
        | nil => simp [Decimal.parseDigits] at hparse
        | cons b bs =>
          have hminus : b ≠ Decimal.MINUS := by
            rintro rfl
            simp [Decimal.parseDigits, show Decimal.isDigit Decimal.MINUS = false from rfl] at hparse
          rw [Decimal.parseSigned, if_neg hminus, hparse]
      unfold ListStore.count
      simp only [hdata, hsigned, hnext v delta hv hlo hhi]
      have hrange : next v delta < 2 ^ 64 := by
        have hmod := Int.emod_lt_of_pos (change delta v) (b := 2 ^ 64) (by decide)
        rw [hnext v delta hv hlo hhi] at hmod
        omega
      by_cases hsmall : next v delta < 2 ^ 63
      · rw [toLong_of_lt hsmall, if_pos (by omega)]
      · rw [toLong_of_ge (Nat.not_lt.mp hsmall) hrange, if_neg (by omega)]
  absent := by
    intro key delta s habsent
    simp [ListStore.count, habsent]

theorem ListStore.incr_counts : Counts ListStore.memcached.incr ListStore.find INCR.next :=
  ListStore.count_counts (fun delta v => v + delta) fun v delta _ hlo _ => by
    unfold INCR.next
    omega

theorem ListStore.decr_counts : Counts ListStore.memcached.decr ListStore.find DECR.next :=
  ListStore.count_counts (fun delta v => max (v - delta) 0) fun v delta hv hlo _ => by
    unfold DECR.next
    omega

/-- A counter of 41 is incremented. -/
theorem replies_counter_answer :
    RepliesCounter { cls := .INCR, key := ascii "k", value := 1 } (some 41)
      (Operation.execute listServices 256 { cls := .INCR, key := ascii "k", value := 1 }
        { items := [(ascii "k", { value := some (ascii "41") })] }).outcome :=
  (replies_counter_iff ListStore.incr_counts ListStore.decr_counts (fun _ _ _ => rfl) (.inl rfl) rfl
    (by decide) (by decide) (by decide) 256).mpr fun v hv => by
      cases hv
      decide

/-- A counter that comes to 2^63 is reported as absent. -/
theorem not_replies_counter_wrapped :
    ¬ ∀ (services : Services ListStore) (find : List UInt8 → ListStore → Record),
      Counts services.support.incr find INCR.next → Counts services.support.decr find DECR.next →
      (∀ value, 0 ≤ value → value < 2 ^ 63 →
        services.utils.longToStrDirect value = Decimal.toString value) →
      ∀ (op : Operation) (s : ListStore) (counter : Option Nat) (outBufferSize : Int),
        (op.cls = .INCR ∨ op.cls = .DECR) → op.noreply = false → 0 ≤ op.value →
        op.value < 2 ^ 63 → IsCounter (find op.key s).value counter →
        RepliesCounter op counter (op.execute services outBufferSize s).outcome := by
  intro h
  have hreplies := h listServices ListStore.find ListStore.incr_counts ListStore.decr_counts
    (fun _ _ _ => rfl) { cls := .INCR, key := ascii "k", value := 1 }
    { items := [(ascii "k", { value := some (ascii "9223372036854775807") })] }
    (some (2 ^ 63 - 1)) 256 (.inl rfl) rfl (by decide) (by decide) (by decide)
  exact absurd (hreplies.notFound.mp (by decide)) (by simp)

end Memcarrot
