import Memcarrot.Parsing.Grammar

open Incremental RawMemory

namespace Memcarrot.Parsing

open Wire

/-- version, quit and shutdown, which look at the number of bytes behind the command word. -/
def TwoByteForm (cls : CommandClass) (s : List UInt8) : Prop :=
  ∃ (space : Bool) (first second : UInt8), first ≠ SP ∧ (space = false → first = CR) ∧
    s = cls.word ++ (List.replicate space.toNat SP ++ [first, second])

def StatsForm (s : List UInt8) : Prop :=
  ∃ space : Bool, s = CommandClass.STATS.word ++ (List.replicate space.toNat SP ++ CRLF)

variable {U : CacheUtils} {m : Memory} {buf : Int} {size : Nat} {cls : CommandClass}

theorem cls_ne_of_regular {c : Wire.Input} {cmd : MemcachedCommand} (h : Regular U c cmd) :
    cmd.cls ≠ .QUIT ∧ cmd.cls ≠ .VERSION ∧ cmd.cls ≠ .SHUTDOWN ∧ cmd.cls ≠ .STATS := by
  obtain ⟨r, rest, -, rfl⟩ := h
  rw [r.cls_command]
  exact r.cls_ne

theorem twoBytes_accepted_iff (hcls : cls = .QUIT ∨ cls = .VERSION ∨ cls = .SHUTDOWN) :
    (∃ cmd, (CommandParser.parse U buf size).run m = .done cmd ∧ cmd.cls = cls) ↔
      TwoByteForm cls (m.slice buf size) := by
  constructor
  · rintro ⟨cmd, hrun, rfl⟩
    rcases parse_run_eq_done_iff.mp hrun with hregular | hirregular
    · have hne := cls_ne_of_regular hregular
      rcases hcls with hc | hc | hc <;> simp [hc] at hne
    · generalize m.slice buf size = s at hirregular
      cases hirregular with
      | twoBytes cls space first second _ hfirst hspace =>
        exact ⟨space, first, second, hfirst, hspace, rfl⟩
      | get cls rest hget => rcases hget with rfl | rfl <;> simp at hcls
      | _ => simp at hcls
  · rintro ⟨space, first, second, hfirst, hspace, hs⟩
    refine ⟨{ cls }, parse_run_eq_done_iff.mpr (.inr ?_), rfl⟩
    rw [hs]
    exact .twoBytes cls space first second hcls hfirst hspace

theorem stats_accepted_iff :
    (∃ cmd, (CommandParser.parse U buf size).run m = .done cmd ∧ cmd.cls = .STATS) ↔
      StatsForm (m.slice buf size) := by
  constructor
  · rintro ⟨cmd, hrun, hcls⟩
    rcases parse_run_eq_done_iff.mp hrun with hregular | hirregular
    · exact absurd hcls (cls_ne_of_regular hregular).2.2.2
    · generalize m.slice buf size = s at hirregular
      cases hirregular with
      | stats space => exact ⟨space, rfl⟩
      | get cls rest hget => rcases hget with rfl | rfl <;> simp at hcls
      | twoBytes cls space first second htwo _ _ =>
        rcases htwo with rfl | rfl | rfl <;> simp at hcls
      | _ => simp at hcls
  · rintro ⟨space, hs⟩
    refine ⟨{ cls := .STATS }, parse_run_eq_done_iff.mpr (.inr ?_), rfl⟩
    rw [hs]
    exact .stats space

/-- A command without arguments is returned exactly on its own line, and consumes that line. -/
def FramedByLine (U : CacheUtils) (m : Memory) (buf : Int) (size : Nat) (cls : CommandClass) :
    Prop :=
  ((∃ cmd, (CommandParser.parse U buf size).run m = .done cmd ∧ cmd.cls = cls) ↔
    ∃ rest, m.slice buf size = cls.word ++ (CRLF ++ rest)) ∧
  ∀ cmd, (CommandParser.parse U buf size).run m = .done cmd → cmd.cls = cls →
    cmd.inputConsumed = (cls.word ++ CRLF).length

/-- Input on which the number of bytes misleads a command without arguments: its line with more
bytes behind it, or the command word with two bytes that are not a line end, or with a space
before them. -/
inductive Misread : CommandClass → List UInt8 → Prop where
  | followed (cls : CommandClass) (b : UInt8) (bs : List UInt8) :
      Misread cls (cls.word ++ (CRLF ++ b :: bs))
  | carriageReturn (cls : CommandClass) (second : UInt8) (hcls : cls ≠ .STATS)
      (hsecond : second ≠ LF) : Misread cls (cls.word ++ [CR, second])
  | space (cls : CommandClass) (first second : UInt8) (hcls : cls ≠ .STATS) (hfirst : first ≠ SP) :
      Misread cls (cls.word ++ [SP, first, second])
  | statsSpace : Misread .STATS (CommandClass.STATS.word ++ SP :: CRLF)

theorem line_iff_twoByteForm (hcls : cls ≠ .STATS) (s : List UInt8) :
    (TwoByteForm cls s ↔ ∃ rest, s = cls.word ++ (CRLF ++ rest)) ↔ ¬ Misread cls s := by
  constructor
  · intro h hmisread
    cases hmisread with
    | followed _ b bs =>
      obtain ⟨space, first, second, hfirst, hspace, hs⟩ := h.mpr ⟨b :: bs, rfl⟩
      have hs := List.append_cancel_left hs
      cases space <;> simp [CRLF, SP, CR] at hs
    | carriageReturn _ second _ hsecond =>
      obtain ⟨rest, hs⟩ := h.mp ⟨false, CR, second, by decide, fun _ => rfl, rfl⟩
      have hs := List.append_cancel_left hs
      simp only [CRLF, List.cons_append, List.cons.injEq, true_and] at hs
      exact hsecond hs.1
    | space _ first second _ hfirst =>
      obtain ⟨rest, hs⟩ := h.mp ⟨true, first, second, hfirst, by simp, rfl⟩
      have hs := List.append_cancel_left hs
      simp [CRLF, SP, CR] at hs
    | statsSpace => exact hcls rfl
  · intro hmisread
    constructor
    · rintro ⟨space, first, second, hfirst, hspace, rfl⟩
      cases space with
      | true => exact absurd (.space cls first second hcls hfirst) hmisread
      | false =>
        obtain rfl := hspace rfl
        by_cases hlf : second = LF
        · exact ⟨[], by rw [hlf]; rfl⟩
        · exact absurd (.carriageReturn cls second hcls hlf) hmisread
    · rintro ⟨rest, rfl⟩
      cases rest with
      | nil => exact ⟨false, CR, LF, by decide, fun _ => rfl, rfl⟩
      | cons b bs => exact absurd (.followed cls b bs) hmisread

theorem line_iff_statsForm (s : List UInt8) :
    (StatsForm s ↔ ∃ rest, s = CommandClass.STATS.word ++ (CRLF ++ rest)) ↔
      ¬ Misread .STATS s := by
  constructor
  · intro h hmisread
    cases hmisread with
    | followed _ b bs =>
      obtain ⟨space, hs⟩ := h.mpr ⟨b :: bs, rfl⟩
      have hs := List.append_cancel_left hs
      cases space <;> simp [CRLF, SP, CR] at hs
    | carriageReturn _ _ hcls _ => exact hcls rfl
    | space _ _ _ hcls _ => exact hcls rfl
    | statsSpace =>
      obtain ⟨rest, hs⟩ := h.mp ⟨true, rfl⟩
      have hs := List.append_cancel_left hs
      simp [CRLF, SP, CR] at hs
  · intro hmisread
    constructor
    · rintro ⟨space, rfl⟩
      cases space with
      | true => exact absurd .statsSpace hmisread
      | false => exact ⟨[], rfl⟩
    · rintro ⟨rest, rfl⟩
      cases rest with
      | nil => exact ⟨false, rfl⟩
      | cons b bs => exact absurd (.followed _ b bs) hmisread

theorem inputConsumed_of_cls {cmd : MemcachedCommand}
    (hcls : cmd.cls = .VERSION ∨ cmd.cls = .STATS ∨ cmd.cls = .QUIT ∨ cmd.cls = .SHUTDOWN) :
    cmd.inputConsumed = (cmd.cls.word ++ CRLF).length := by
  unfold MemcachedCommand.inputConsumed
  rcases hcls with h | h | h | h <;> rw [h] <;> rfl

/-- The commands without arguments are framed by their line exactly where they are not misread. -/
theorem framedByLine_iff (U : CacheUtils) (m : Memory) (buf : Int) (size : Nat)
    {cls : CommandClass}
    (hcls : cls = .VERSION ∨ cls = .STATS ∨ cls = .QUIT ∨ cls = .SHUTDOWN) :
    FramedByLine U m buf size cls ↔ ¬ Misread cls (m.slice buf size) := by
  have hconsumed : ∀ cmd, (CommandParser.parse U buf size).run m = .done cmd → cmd.cls = cls →
      cmd.inputConsumed = (cls.word ++ CRLF).length := by
    rintro cmd - rfl
    exact inputConsumed_of_cls hcls
  unfold FramedByLine
  rw [and_iff_left hconsumed]
  by_cases hstats : cls = .STATS
  · subst hstats
    rw [stats_accepted_iff, line_iff_statsForm]
  · have htwo : cls = .QUIT ∨ cls = .VERSION ∨ cls = .SHUTDOWN := by
      rcases hcls with h | h | h | h
      · exact .inr (.inl h)
      · exact absurd h hstats
      · exact .inl h
      · exact .inr (.inr h)
    rw [twoBytes_accepted_iff htwo, line_iff_twoByteForm hstats]

theorem framedByLine_iff_version :
    let m := Memory.ofBytes 100 (ascii "version\r\n")
    FramedByLine decimalUtils m 100 9 .VERSION ↔ ¬ Misread .VERSION (m.slice 100 9) :=
  framedByLine_iff decimalUtils _ 100 9 (.inl rfl)

theorem not_framedByLine_version :
    ¬ FramedByLine decimalUtils (Memory.ofBytes 100 (ascii "version\r\nquit\r\n")) 100 15
      .VERSION := by
  intro h
  obtain ⟨cmd, hrun, -⟩ := h.1.mpr ⟨ascii "quit\r\n", by decide +kernel⟩
  have hinc : (CommandParser.parse decimalUtils 100 15).run
      (Memory.ofBytes 100 (ascii "version\r\nquit\r\n")) = .incomplete := by decide +kernel
  have hcontra := hinc.symm.trans hrun
  cases hcontra

end Memcarrot.Parsing
