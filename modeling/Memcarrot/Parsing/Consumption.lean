import Memcarrot.Parsing.Grammar
import Memcarrot.Wire.Consumption
import Memcarrot.Wire.Waiting

open Incremental RawMemory

namespace Memcarrot.Parsing

open Wire

/-- A command that consumes a part of the buffer from which it is parsed again: its line or, if it
has a data block, the request with the block. -/
structure ConsumesExactly (U : CacheUtils) (m : Memory) (buf : Int) (size : Nat)
    (cmd : MemcachedCommand) : Prop where
  positive : 0 < cmd.inputConsumed
  le_size : cmd.inputConsumed ≤ size
  line : cmd.cls.isStorage = false →
    afterLine (m.slice buf size) = some cmd.inputConsumed.toNat
  again : (CommandParser.parse U buf cmd.inputConsumed).run m = .done cmd

def ExactConsumption (U : CacheUtils) (m : Memory) (buf : Int) (size : Nat) : Prop :=
  ∀ cmd, (CommandParser.parse U buf size).run m = .done cmd → ConsumesExactly U m buf size cmd

/-- The inputs with a command that consumes too much or too little: get and gets directly at the
line end, flush_all with a space there, or with a short word other than noreply that starts with
n, and the commands without arguments on anything but their own line. -/
inductive Misframed : List UInt8 → Prop where
  | get (cls : CommandClass) (rest : List UInt8) (hcls : cls = .GET ∨ cls = .GETS) :
      Misframed (cls.word ++ (CRLF ++ rest))
  | flushAll (rest : List UInt8) : Misframed (CommandClass.FLUSH_ALL.word ++ SP :: (CRLF ++ rest))
  | flushWord (word rest : List UInt8) (isToken : IsToken word) (head : word.head? = some LOWER_N)
      (short : word.length < 7) (long : 9 ≤ (word ++ (CRLF ++ rest)).length) :
      Misframed (CommandClass.FLUSH_ALL.word ++ SP :: (word ++ (CRLF ++ rest)))
  | space (cls : CommandClass) (first second : UInt8)
      (hcls : cls = .QUIT ∨ cls = .VERSION ∨ cls = .SHUTDOWN) (hfirst : first ≠ SP) :
      Misframed (cls.word ++ [SP, first, second])
  | carriageReturn (cls : CommandClass) (second : UInt8)
      (hcls : cls = .QUIT ∨ cls = .VERSION ∨ cls = .SHUTDOWN) (hsecond : second ≠ LF) :
      Misframed (cls.word ++ [CR, second])
  | statsSpace : Misframed (CommandClass.STATS.word ++ SP :: CRLF)

variable {U : CacheUtils} {m : Memory} {buf : Int} {size : Nat} {cmd : MemcachedCommand}

/-- A line that yields the command whatever follows it and is counted right. -/
theorem ConsumesExactly.of_front (front rest : List UInt8)
    (hslice : m.slice buf size = front ++ rest)
    (hconsumed : cmd.inputConsumed = front.length) (hpos : 0 < front.length)
    (hline : cmd.cls.isStorage = false → IsLine front)
    (hparse : Wire.parse U ⟨buf, front⟩ = .done cmd) : ConsumesExactly U m buf size cmd := by
  have hsize : size = front.length + rest.length := by
    simpa using congrArg List.length hslice
  refine ⟨by omega, by omega, fun hcls => ?_, ?_⟩
  · rw [hslice, (hline hcls).afterLine_eq, hconsumed, Int.toNat_natCast]
  · rw [hconsumed, Refinement.parse_run, Memory.slice_front hslice]
    exact hparse

theorem consumesExactly_of_regular (h : Regular U ⟨buf, m.slice buf size⟩ cmd) :
    ConsumesExactly U m buf size cmd := by
  obtain ⟨r, rest, hslice, rfl⟩ := h
  have hparse := r.parse_eq buf []
  rw [List.append_nil] at hparse
  refine .of_front r.bytes rest hslice (r.inputConsumed_command buf) r.length_bytes_pos
    (fun hcls => ?_) hparse
  rw [r.cls_command] at hcls
  exact Request.isLine_bytes hcls

theorem isLine_word (cls : CommandClass) : IsLine (cls.word ++ CRLF) :=
  isLine_crlf.append (isToken_word cls).cr_notMem

theorem take_seven_ne_noreply {word : List UInt8} (hshort : word.length < 7) (s : List UInt8) :
    (word ++ (CRLF ++ s)).take 7 ≠ NOREPLY := by
  intro h
  have hcr : CR ∈ (word ++ (CRLF ++ s)).take 7 := by
    obtain ⟨k, hk⟩ : ∃ k, 7 - word.length = k + 1 := ⟨6 - word.length, by omega⟩
    rw [List.take_append, hk]
    simp [CRLF]
  rw [h] at hcr
  exact absurd hcr (by decide)

theorem inputConsumed_flushWord (word : List UInt8) :
    MemcachedCommand.inputConsumed { cls := .FLUSH_ALL, consumed := word.length + 2 } =
      (CommandClass.FLUSH_ALL.word ++ SP :: (word ++ CRLF)).length := by
  have hword : CommandClass.FLUSH_ALL.word.length = 9 := rfl
  have hcrlf : CRLF.length = 2 := rfl
  simp only [MemcachedCommand.inputConsumed, CommandClass.commandLength, List.length_append,
    List.length_cons, hword, hcrlf]
  omega

theorem consumesExactly_of_irregular (h : Irregular (m.slice buf size) cmd)
    (hframed : ¬ Misframed (m.slice buf size)) : ConsumesExactly U m buf size cmd := by
  generalize hslice : m.slice buf size = s at h hframed
  cases h with
  | get cls rest hcls => exact absurd (.get cls rest hcls) hframed
  | flushAll rest => exact absurd (.flushAll rest) hframed
  | flushWord word rest htoken hhead hlong hother =>
    have hseven : 7 ≤ word.length := by
      by_contra hshort
      exact hframed (.flushWord word rest htoken hhead (by omega) hlong)
    have htake (s : List UInt8) : (word ++ (CRLF ++ s)).take 7 = word.take 7 :=
      List.take_append_of_le_length hseven
    refine .of_front (CommandClass.FLUSH_ALL.word ++ SP :: (word ++ CRLF)) rest
      (hslice.trans (by simp)) (inputConsumed_flushWord word) ?_ (fun _ => ?_) ?_
    · rw [List.length_append, List.length_cons]
      omega
    · have hspace : CR ∉ [SP] := by decide
      have hword := (isLine_crlf.append htoken.cr_notMem).append hspace
      exact hword.append (isToken_word .FLUSH_ALL).cr_notMem
    · have hagain : Irregular (CommandClass.FLUSH_ALL.word ++ SP :: (word ++ (CRLF ++ [])))
          { cls := .FLUSH_ALL, consumed := word.length + 2 } := by
        refine .flushWord word [] htoken hhead ?_ ?_
        · simp [CRLF]
          omega
        · rw [htake, ← htake rest]
          exact hother
      rw [List.append_nil] at hagain
      exact hagain.parse_eq buf
  | twoBytes cls space first second hcls hfirst hspace =>
    cases space with
    | true => exact absurd (.space cls first second hcls hfirst) hframed
    | false =>
      obtain rfl := hspace rfl
      by_cases hsecond : second = LF
      · subst hsecond
        refine .of_front (cls.word ++ CRLF) [] (hslice.trans (by simp [CRLF]))
          ?_ (by simp [CRLF]) (fun _ => isLine_word cls)
          ((Irregular.twoBytes cls false CR LF hcls (by decide) fun _ => rfl).parse_eq buf)
        rcases hcls with rfl | rfl | rfl <;> rfl
      · exact absurd (.carriageReturn cls second hcls hsecond) hframed
  | stats space =>
    cases space with
    | true => exact absurd .statsSpace hframed
    | false =>
      exact .of_front (CommandClass.STATS.word ++ CRLF) [] (hslice.trans (by simp))
        rfl (by simp [CRLF]) (fun _ => isLine_word _) ((Irregular.stats false).parse_eq buf)

/-- get or gets directly at the end of its line, as all of the input. -/
def BareGet (s : List UInt8) : Prop :=
  ∃ cls : CommandClass, (cls = .GET ∨ cls = .GETS) ∧ s = cls.word ++ CRLF

theorem inputConsumed_of_irregular {s : List UInt8} (h : Irregular s cmd) :
    0 < cmd.inputConsumed ∧ (cmd.inputConsumed ≤ s.length ∨ BareGet s) := by
  cases h with
  | get cls rest hcls =>
    refine ⟨by rcases hcls with rfl | rfl <;> decide, ?_⟩
    cases rest with
    | nil => exact .inr ⟨cls, hcls, by simp⟩
    | cons b bs =>
      left
      rcases hcls with rfl | rfl <;>
        simp [MemcachedCommand.inputConsumed, CommandClass.commandLength, CommandClass.word, CRLF,
          ascii] <;> omega
  | flushAll rest =>
    refine ⟨by decide, .inl ?_⟩
    simp [MemcachedCommand.inputConsumed, CommandClass.commandLength, CommandClass.word, CRLF,
      ascii]
    omega
  | flushWord word rest htoken hhead hlong hother =>
    rw [inputConsumed_flushWord]
    refine ⟨Int.natCast_pos.mpr (List.length_pos_of_ne_nil (by simp)), .inl ?_⟩
    simp only [List.length_append, List.length_cons]
    omega
  | twoBytes cls space first second hcls hfirst hspace =>
    refine ⟨by rcases hcls with rfl | rfl | rfl <;> decide, .inl ?_⟩
    have hword : ({ cls } : MemcachedCommand).inputConsumed = cls.word.length + 2 := by
      rcases hcls with rfl | rfl | rfl <;> decide
    rw [hword]
    simp only [List.length_append, List.length_cons, List.length_nil]
    omega
  | stats space =>
    refine ⟨by decide, .inl ?_⟩
    cases space <;> decide

/-- Every command consumes something, and none more than the input, but a bare get that ends it. -/
theorem inputConsumed_bounds (h : (CommandParser.parse U buf size).run m = .done cmd) :
    0 < cmd.inputConsumed ∧ (cmd.inputConsumed ≤ size ∨ BareGet (m.slice buf size)) := by
  rcases parse_run_eq_done_iff.mp h with hregular | hirregular
  · have hexact := consumesExactly_of_regular hregular
    exact ⟨hexact.positive, .inl hexact.le_size⟩
  · have hbounds := inputConsumed_of_irregular hirregular
    rwa [Memory.length_slice] at hbounds

theorem BareGet.parse_eq (h : BareGet (m.slice buf size)) :
    ∃ cls : CommandClass, (cls = .GET ∨ cls = .GETS) ∧
      (CommandParser.parse U buf size).run m = .done { cls, consumed := 2 } ∧
      ({ cls, consumed := 2 } : MemcachedCommand).inputConsumed = size + 1 := by
  obtain ⟨cls, hcls, hslice⟩ := h
  refine ⟨cls, hcls, parse_run_eq_done_iff.mpr (.inr ?_), ?_⟩
  · have hget := Irregular.get cls [] hcls
    rwa [List.append_nil, ← hslice] at hget
  · have hsize := congrArg List.length hslice
    rw [Memory.length_slice] at hsize
    rw [hsize]
    rcases hcls with rfl | rfl <;> decide

/-- A command that is not counted up to the end of the first line. -/
theorem not_exactConsumption_of_line (hirregular : Irregular (m.slice buf size) cmd)
    (hcls : cmd.cls.isStorage = false)
    (hline : afterLine (m.slice buf size) ≠ some cmd.inputConsumed.toNat) :
    ¬ ExactConsumption U m buf size := fun h =>
  hline ((h cmd (parse_run_eq_done_iff.mpr (.inr hirregular))).line hcls)

theorem not_exactConsumption_of_misframed (h : Misframed (m.slice buf size)) :
    ¬ ExactConsumption U m buf size := by
  generalize hslice : m.slice buf size = s at h
  cases h with
  | get cls rest hcls =>
    have hirregular := Irregular.get cls rest hcls
    refine not_exactConsumption_of_line (hslice ▸ hirregular) ?_ ?_
    · rcases hcls with rfl | rfl <;> rfl
    · rw [hslice, ← List.append_assoc, (isLine_word cls).afterLine_eq]
      rcases hcls with rfl | rfl <;> decide
  | flushAll rest =>
    have hirregular := Irregular.flushAll rest
    apply not_exactConsumption_of_line (hslice ▸ hirregular) rfl
    have hfront : IsLine (CommandClass.FLUSH_ALL.word ++ SP :: CRLF) :=
      ⟨CommandClass.FLUSH_ALL.word ++ [SP], by decide, by simp⟩
    have hbytes : CommandClass.FLUSH_ALL.word ++ SP :: (CRLF ++ rest) =
        (CommandClass.FLUSH_ALL.word ++ SP :: CRLF) ++ rest := by simp
    rw [hslice, hbytes, hfront.afterLine_eq]
    decide
  | flushWord word rest htoken hhead hshort hlong =>
    intro hexact
    have hirregular := Irregular.flushWord word rest htoken hhead hlong
      (take_seven_ne_noreply hshort rest)
    have hagain := (hexact _ (parse_run_eq_done_iff.mpr (.inr (hslice ▸ hirregular)))).again
    have hbytes : m.slice buf size =
        (CommandClass.FLUSH_ALL.word ++ SP :: (word ++ CRLF)) ++ rest := hslice.trans (by simp)
    rw [inputConsumed_flushWord, Refinement.parse_run, Memory.slice_front hbytes] at hagain
    obtain ⟨b, bs, hb, hsp⟩ := htoken.append_head_ne_space CRLF
    have hopens : Opens ⟨buf, CommandClass.FLUSH_ALL.word ++ SP :: (word ++ CRLF)⟩ .FLUSH_ALL true
        ⟨buf + CommandClass.FLUSH_ALL.word.length + 1, word ++ CRLF⟩ :=
      ⟨rfl, rfl, b, bs, hb, hsp, by simp⟩
    have hwaits : flushAll U ⟨buf + CommandClass.FLUSH_ALL.word.length + 1, word ++ CRLF⟩ =
        .incomplete := by
      refine (flushAll_eq_incomplete_iff ⟨word, [], by simp⟩).mpr (.word _ ?_ ?_)
      · rw [List.head?_append, hhead]
        rfl
      · simp [CRLF]
        omega
    have hcontra := (hopens.parse_eq.trans hwaits).symm.trans hagain
    cases hcontra
  | space cls first second hcls hfirst =>
    have hirregular := Irregular.twoBytes cls true first second hcls hfirst (by simp)
    refine not_exactConsumption_of_line (hslice ▸ hirregular) ?_ ?_
    · rcases hcls with rfl | rfl | rfl <;> rfl
    · have hspace : SP ≠ CR := by decide
      rw [hslice, afterLine_append (isToken_word cls).cr_notMem, afterLine_cons hspace]
      by_cases hline : first = CR ∧ second = LF
      · rcases hcls with rfl | rfl | rfl <;> simp [afterLine, hline] <;> decide
      · simp [afterLine, hline]
  | carriageReturn cls second hcls hsecond =>
    have hirregular := Irregular.twoBytes cls false CR second hcls (by decide) fun _ => rfl
    refine not_exactConsumption_of_line (hslice ▸ hirregular) ?_ ?_
    · rcases hcls with rfl | rfl | rfl <;> rfl
    · rw [hslice, afterLine_append (isToken_word cls).cr_notMem]
      simp [afterLine, hsecond]
  | statsSpace =>
    have hirregular := Irregular.stats true
    apply not_exactConsumption_of_line (hslice ▸ hirregular) rfl
    rw [hslice]
    decide

/-- What a command consumes is exact on all inputs but the misframed ones. -/
theorem exactConsumption_iff (U : CacheUtils) (m : Memory) (buf : Int) (size : Nat) :
    ExactConsumption U m buf size ↔ ¬ Misframed (m.slice buf size) := by
  constructor
  · exact fun hexact hmisframed => not_exactConsumption_of_misframed hmisframed hexact
  · intro hframed cmd hrun
    rcases parse_run_eq_done_iff.mp hrun with hregular | hirregular
    · exact consumesExactly_of_regular hregular
    · exact consumesExactly_of_irregular hirregular hframed

theorem not_exactConsumption_get :
    ¬ ExactConsumption decimalUtils (Memory.ofBytes 100 (ascii "get\r\n")) 100 5 := by
  intro h
  have hle := (h { cls := .GET, consumed := 2 } (by decide +kernel)).le_size
  exact absurd hle (by decide)

end Memcarrot.Parsing
