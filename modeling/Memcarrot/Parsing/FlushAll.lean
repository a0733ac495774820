import Memcarrot.Parsing.Grammar
import Memcarrot.Wire.Failures
import Memcarrot.Wire.Prefixes
import Memcarrot.Wire.Stalls

open Incremental RawMemory

namespace Memcarrot

namespace Wire

/-- A line of flush_all: a decimal delay in the range of a nonnegative int behind one space, and
noreply behind one or more spaces, each of which may be missing. -/
structure FlushLine (U : CacheUtils) where
  delay : Option (Number U)
  gap : Option Nat
  isDelay : ∀ d ∈ delay, d.token.head? ≠ some LOWER_N
  delay_range : ∀ d ∈ delay, 0 ≤ d.value ∧ d.value < 2 ^ 31

variable {U : CacheUtils}

/-- What follows the command word. -/
def FlushLine.tail (l : FlushLine U) : List UInt8 :=
  l.delay.elim [] (fun d => SP :: d.token) ++ lineEndBytes l.gap

def FlushLine.bytes (l : FlushLine U) : List UInt8 := CommandClass.FLUSH_ALL.word ++ l.tail

/-- The lines of flush_all that are not taken for what they are: with a space and nothing behind
it, with another word that begins with n, with a delay that becomes another number when it is
narrowed, and with more than one space in front of noreply, on which the parser fails as long as
noreply is not received. Without a delay it fails on such spaces for good, and it waits on a short
word that begins with n. -/
inductive FlushMisread (U : CacheUtils) : List UInt8 → Prop where
  | space (rest : List UInt8) :
      FlushMisread U (CommandClass.FLUSH_ALL.word ++ SP :: (CRLF ++ rest))
  | word (word rest : List UInt8) (isToken : IsToken word) (head : word.head? = some LOWER_N)
      (long : 9 ≤ (word ++ (CRLF ++ rest)).length)
      (other : (word ++ (CRLF ++ rest)).take 7 ≠ NOREPLY) :
      FlushMisread U (CommandClass.FLUSH_ALL.word ++ SP :: (word ++ (CRLF ++ rest)))
  | delay (delay : Number U) (gap : Option Nat) (rest : List UInt8)
      (isDelay : delay.token.head? ≠ some LOWER_N)
      (range : ¬ (0 ≤ delay.value ∧ delay.value < 2 ^ 31))
      (nonneg : 0 ≤ FLUSH_ALL.toInt delay.value) :
      FlushMisread U
        (CommandClass.FLUSH_ALL.word ++ SP :: (delay.token ++ (lineEndBytes gap ++ rest)))
  | spaces (delay : Number U) (extra : Nat) (rest : List UInt8)
      (isDelay : delay.token.head? ≠ some LOWER_N)
      (range : 0 ≤ delay.value ∧ delay.value < 2 ^ 31) :
      FlushMisread U (CommandClass.FLUSH_ALL.word ++
        SP :: (delay.token ++ (lineEndBytes (some (extra + 1)) ++ rest)))
  | refused (extra : Nat) (rest : List UInt8) :
      FlushMisread U (CommandClass.FLUSH_ALL.word ++ (lineEndBytes (some (extra + 1)) ++ rest))
  | waits (args : List UInt8) (line : CRLF <:+: args) (stalls : FlushStalls U args) :
      FlushMisread U (CommandClass.FLUSH_ALL.word ++ SP :: args)

theorem toInt_of_range {v : Int} (h : 0 ≤ v ∧ v < 2 ^ 31) : FLUSH_ALL.toInt v = v := by
  unfold FLUSH_ALL.toInt
  exact Int.bmod_eq_of_le (by omega) (by omega)

/-- A line that goes on behind one space has noreply there, or its delay. -/
theorem FlushLine.tail_space {l : FlushLine U} {rest s : List UInt8}
    (h : l.tail ++ rest = SP :: s) :
    (∃ extra, l.delay = none ∧ l.gap = some extra ∧
        s = List.replicate extra SP ++ (NOREPLY ++ (CRLF ++ rest))) ∨
      ∃ d, l.delay = some d ∧ s = d.token ++ (lineEndBytes l.gap ++ rest) := by
  unfold FlushLine.tail at h
  cases hdelay : l.delay with
  | some d =>
    rw [hdelay] at h
    simp only [Option.elim_some, List.cons_append, List.append_assoc, List.cons.injEq,
      true_and] at h
    exact .inr ⟨d, rfl, h.symm⟩
  | none =>
    rw [hdelay, Option.elim_none, List.nil_append] at h
    cases hgap : l.gap with
    | none =>
      rw [hgap] at h
      exact absurd (List.cons.inj h).1 (by decide)
    | some extra =>
      rw [hgap, lineEndBytes, List.replicate_succ] at h
      simp only [List.cons_append, List.append_assoc, List.cons.injEq, true_and] at h
      exact .inl ⟨extra, rfl, rfl, h.symm⟩

/-- The word behind the space is the delay, if it does not begin with n. -/
theorem FlushLine.tail_token {l : FlushLine U} {rest t s : List UInt8}
    (h : l.tail ++ rest = SP :: (t ++ s)) (ht : IsToken t) (hhead : t.head? ≠ some LOWER_N)
    (hs : Stops s) :
    ∃ d, l.delay = some d ∧ d.token = t ∧ lineEndBytes l.gap ++ rest = s := by
  rcases l.tail_space h with ⟨extra, -, -, heq⟩ | ⟨d, hdelay, heq⟩
  · cases extra with
    | zero => exact absurd (ht.head_append heq).1 hhead
    | succ extra =>
      rw [List.replicate_succ, List.cons_append] at heq
      exact absurd rfl (ht.head_append heq).2.1
  · obtain ⟨htoken, hrest⟩ := d.isToken.append_inj ht (lineEndBytes_stops l.gap rest) hs heq.symm
    exact ⟨d, hdelay, htoken, hrest⟩

theorem lineEndBytes_spaces {gap : Option Nat} {rest s : List UInt8}
    (h : lineEndBytes gap ++ rest = SP :: SP :: s) : ∃ extra, gap = some (extra + 1) := by
  cases gap with
  | none => exact absurd (List.cons.inj h).1 (by decide)
  | some extra =>
    cases extra with
    | zero => exact absurd (List.cons.inj (List.cons.inj h).2).1 (by decide)
    | succ extra => exact ⟨extra, rfl⟩

theorem flush_all_of_prefix {cls : CommandClass} {s : List UInt8}
    (h : cls.word <+: s) (hflush : CommandClass.FLUSH_ALL.word <+: s) : cls = .FLUSH_ALL := by
  have hcomparable := List.prefix_or_prefix_of_prefix h hflush
  revert hcomparable
  cases cls <;> decide

theorem FlushStalls.reached {args : List UInt8} (h : FlushStalls U args) : Reached true args := by
  cases h with
  | word s hhead _ =>
    obtain ⟨bs, rfl⟩ := List.head?_eq_some_iff.mp hhead
    exact ⟨LOWER_N, bs, rfl, by decide, nofun⟩
  | delayed delay t _ _ _ =>
    obtain ⟨b, bs, hb, hsp⟩ := delay.isToken.append_head_ne_space t
    exact ⟨b, bs, hb, hsp, nofun⟩

theorem line_of_flush_all {args : List UInt8} :
    CRLF <:+: CommandClass.FLUSH_ALL.word ++ SP :: args ↔ CRLF <:+: args := by
  have hword : CR ∉ CommandClass.FLUSH_ALL.word ++ [SP] := by decide
  have hsplit : CommandClass.FLUSH_ALL.word ++ SP :: args =
      (CommandClass.FLUSH_ALL.word ++ [SP]) ++ args := by simp
  rw [hsplit, crlf_infix_append hword]

theorem not_bareTouch_of_flush_all {s : List UInt8} (h : CommandClass.FLUSH_ALL.word <+: s) :
    ¬ BareTouch s := by
  rintro ⟨cls, space, rest, hcls, rfl⟩
  have heq := flush_all_of_prefix (List.prefix_append _ _) h
  rcases hcls with rfl | rfl <;> cases heq

/-- Where flush_all waits, its arguments stand behind a space. -/
theorem Stalls.flush {s : List UInt8} (h : Stalls U s)
    (hflush : CommandClass.FLUSH_ALL.word <+: s) :
    ∃ args, s = CommandClass.FLUSH_ALL.word ++ SP :: args ∧ FlushStalls U args := by
  obtain ⟨cls, space, args, ⟨b, bs, rfl, -, hcr⟩, rfl, hstall⟩ := h
  obtain rfl := flush_all_of_prefix (List.prefix_append _ _) hflush
  cases space with
  | true => exact ⟨b :: bs, rfl, hstall⟩
  | false =>
    obtain rfl := hcr rfl
    have hstops := stops_cr bs
    generalize hargs : CR :: bs = args at hstall hstops
    cases hstall with
    | word _ hhead _ => cases hstops.head LOWER_N hhead
    | delayed delay t _ _ _ => exact absurd rfl (delay.isToken.head_append hargs.symm).2.2

/-- The parser fails on a delay with two spaces behind it and nothing else. -/
theorem parse_two_spaces (delay : Number U) (hhead : delay.token.head? ≠ some LOWER_N)
    (hnonneg : 0 ≤ FLUSH_ALL.toInt delay.value) (ptr : Int) :
    parse U ⟨ptr, CommandClass.FLUSH_ALL.word ++ SP :: (delay.token ++ [SP, SP])⟩ =
      .failed (.illegalFormat "'\r\n' was expected") := by
  obtain ⟨b, bs, hb, hsp⟩ := delay.isToken.append_head_ne_space [SP, SP]
  have hopens : Opens ⟨ptr, CommandClass.FLUSH_ALL.word ++ SP :: (delay.token ++ [SP, SP])⟩
      .FLUSH_ALL true ⟨ptr + CommandClass.FLUSH_ALL.word.length + 1, delay.token ++ [SP, SP]⟩ :=
    ⟨rfl, rfl, b, bs, hb, hsp, by simp⟩
  have hspan := span_isToken (ptr + CommandClass.FLUSH_ALL.word.length + 1) delay.isToken.bytes
    (stops_space [SP])
  have hgap (at_ : Int) : (span isSpace (⟨at_, [SP, SP]⟩ : Input) :
      Verdict Thrown (Token × Input)) = .incomplete := span_eq_incomplete_iff.mpr (by simp)
  have hneg : ¬ FLUSH_ALL.toInt delay.value < 0 := by omega
  rw [hopens.parse_eq]
  simp only [arguments, flushAll, hspan, Verdict.done_bind, ne_eq, delay.isToken.nonempty,
    not_false_eq_true, if_true, flushArguments, hhead, number_eq, failIf, hneg, if_false, hgap,
    Verdict.pure_eq_done, skipCRLF]
  rfl

end Wire

open Wire

namespace Parsing

variable {U : CacheUtils} {m : Memory} {buf : Int} {size : Nat}

/-- A flush_all that is accepted is a line of flush_all with this delay and noreply, and the
parser fails on no strict prefix of it. All these lines are accepted, and every other line that
begins with flush_all is rejected. -/
structure ReadsFlushAll (U : CacheUtils) (m : Memory) (buf : Int) (size : Nat) : Prop where
  accepted : ∀ cmd, (CommandParser.parse U buf size).run m = .done cmd → cmd.cls = .FLUSH_ALL →
    ∃ (l : FlushLine U) (rest : List UInt8), m.slice buf size = l.bytes ++ rest ∧
      cmd.delay = l.delay.elim 0 Number.value ∧ cmd.noreply = l.gap.isSome ∧
      ∀ n < l.bytes.length, ∀ e, (CommandParser.parse U buf n).run m ≠ .failed e
  accepts : ∀ (l : FlushLine U) (rest : List UInt8), m.slice buf size = l.bytes ++ rest →
    ∃ cmd, (CommandParser.parse U buf size).run m = .done cmd ∧ cmd.cls = .FLUSH_ALL
  rejects : CommandClass.FLUSH_ALL.word <+: m.slice buf size → CRLF <:+: m.slice buf size →
    (∀ (l : FlushLine U) (rest : List UInt8), m.slice buf size ≠ l.bytes ++ rest) →
    ∃ e, (CommandParser.parse U buf size).run m = .failed e ∧ e.isIllegalFormat = true

/-- What is accepted behind flush_all and a space is a line that has the same bytes there. -/
theorem ReadsFlushAll.line (h : ReadsFlushAll U m buf size) {s : List UInt8}
    {cmd : MemcachedCommand} (hbytes : m.slice buf size = CommandClass.FLUSH_ALL.word ++ SP :: s)
    (hparse : (CommandParser.parse U buf size).run m = .done cmd) (hcls : cmd.cls = .FLUSH_ALL) :
    ∃ (l : FlushLine U) (rest : List UInt8), l.tail ++ rest = SP :: s ∧
      ∀ n < l.bytes.length, ∀ e, (CommandParser.parse U buf n).run m ≠ .failed e := by
  obtain ⟨l, rest, hline, -, -, hprefixes⟩ := h.accepted cmd hparse hcls
  rw [FlushLine.bytes, List.append_assoc, hbytes] at hline
  exact ⟨l, rest, (List.append_cancel_left hline).symm, hprefixes⟩

theorem parse_delayed {delay : Number U} {gap : Option Nat} {rest : List UInt8}
    (hbytes : m.slice buf size =
      CommandClass.FLUSH_ALL.word ++ SP :: (delay.token ++ (lineEndBytes gap ++ rest)))
    (hhead : delay.token.head? ≠ some LOWER_N) (hnonneg : 0 ≤ FLUSH_ALL.toInt delay.value) :
    (CommandParser.parse U buf size).run m =
      .done (FlushRequest.delayed delay gap hhead hnonneg).command := by
  refine parse_run_eq_done_iff.mpr
    (.inl ⟨.flushAll (.delayed delay gap hhead hnonneg), rest, ?_, rfl⟩)
  rw [hbytes]
  simp [FlushRequest.bytes, FlushRequest.space, FlushRequest.header]

/-- A command is accepted behind its word. -/
theorem word_prefix_of_accepted {cmd : MemcachedCommand}
    (hparse : (CommandParser.parse U buf size).run m = .done cmd) :
    cmd.cls.word <+: m.slice buf size := by
  rcases parse_run_eq_done_iff.mp hparse with ⟨r, rest, hbytes, rfl⟩ | hirregular
  · rw [r.cls_command, show m.slice buf size = _ from hbytes, Request.bytes, List.append_assoc]
    exact List.prefix_append _ _
  · generalize m.slice buf size = bytes at hirregular
    cases hirregular <;> exact List.prefix_append _ _

/-- What is accepted as flush_all is a request of it, or one of the lines that are misread. -/
theorem flushAll_of_accepted {cmd : MemcachedCommand}
    (hparse : (CommandParser.parse U buf size).run m = .done cmd) (hcls : cmd.cls = .FLUSH_ALL) :
    (∃ (r : FlushRequest U) (rest : List UInt8), m.slice buf size = r.bytes ++ rest ∧
        cmd = r.command) ∨
      (∃ rest, m.slice buf size = CommandClass.FLUSH_ALL.word ++ SP :: (CRLF ++ rest)) ∨
      ∃ word rest, IsToken word ∧ word.head? = some LOWER_N ∧
        9 ≤ (word ++ (CRLF ++ rest)).length ∧ (word ++ (CRLF ++ rest)).take 7 ≠ NOREPLY ∧
        m.slice buf size = CommandClass.FLUSH_ALL.word ++ SP :: (word ++ (CRLF ++ rest)) := by
  rcases parse_run_eq_done_iff.mp hparse with ⟨r, rest, hbytes, rfl⟩ | hirregular
  · rw [r.cls_command] at hcls
    obtain ⟨f, rfl⟩ : ∃ f, r = .flushAll f := by
      rcases r.isAbstract_or_flushAll with ⟨habstract, -⟩ | hflush
      · rw [hcls] at habstract
        cases habstract
      · exact hflush
    rw [Request.bytes_flushAll] at hbytes
    exact .inl ⟨f, rest, hbytes, rfl⟩
  · generalize m.slice buf size = bytes at hirregular
    cases hirregular with
    | get cls rest hget => rcases hget with rfl | rfl <;> cases hcls
    | flushAll rest => exact .inr (.inl ⟨rest, rfl⟩)
    | flushWord word rest hword hhead hlong hother =>
      exact .inr (.inr ⟨word, rest, hword, hhead, hlong, hother, rfl⟩)
    | twoBytes cls space first second htwo _ _ => rcases htwo with rfl | rfl | rfl <;> cases hcls
    | stats space => cases hcls

/-- Nothing is accepted behind two spaces. -/
theorem not_accepted_spaces {s : List UInt8} {cmd : MemcachedCommand}
    (hbytes : m.slice buf size = CommandClass.FLUSH_ALL.word ++ SP :: SP :: s)
    (hparse : (CommandParser.parse U buf size).run m = .done cmd) : cmd.cls ≠ .FLUSH_ALL := by
  intro hcls
  rcases flushAll_of_accepted hparse hcls with ⟨r, rest, hr, -⟩ | ⟨rest, hr⟩ |
    ⟨word, rest, hword, -, -, -, hr⟩
  · rw [hbytes, FlushRequest.bytes, List.append_assoc] at hr
    have htail := List.append_cancel_left hr
    cases r with
    | now => exact absurd (List.cons.inj htail).1 (by decide)
    | nowNoreply => exact absurd (List.cons.inj (List.cons.inj htail).2).1 (by decide)
    | delayed delay gap hhead hnonneg =>
      have hdelay : delay.token ++ (lineEndBytes gap ++ rest) = SP :: s := by
        simpa [FlushRequest.space, FlushRequest.header] using htail.symm
      exact absurd rfl (delay.isToken.head_append hdelay).2.1
  · have htail := List.append_cancel_left (hbytes.symm.trans hr)
    exact absurd (List.cons.inj (List.cons.inj htail).2).1 (by decide)
  · have htail := List.append_cancel_left (hbytes.symm.trans hr)
    exact absurd rfl (hword.head_append (List.cons.inj htail).2.symm).2.1

/-- A line of flush_all is neither refused nor waited on, and other lines are not waited on. -/
theorem ReadsFlushAll.ne_incomplete (h : ReadsFlushAll U m buf size)
    (hflush : CommandClass.FLUSH_ALL.word <+: m.slice buf size)
    (hline : CRLF <:+: m.slice buf size) :
    (CommandParser.parse U buf size).run m ≠ .incomplete := by
  intro hinc
  by_cases hgrammar : ∃ (l : FlushLine U) (rest : List UInt8), m.slice buf size = l.bytes ++ rest
  · obtain ⟨l, rest, hbytes⟩ := hgrammar
    obtain ⟨cmd, hparse, -⟩ := h.accepts l rest hbytes
    rw [hinc] at hparse
    cases hparse
  · simp only [not_exists] at hgrammar
    obtain ⟨e, hparse, -⟩ := h.rejects hflush hline hgrammar
    rw [hinc] at hparse
    cases hparse

/-- The line is not read as it is written. -/
theorem not_readsFlushAll (hmisread : FlushMisread U (m.slice buf size)) :
    ¬ ReadsFlushAll U m buf size := by
  intro h
  generalize hbytes : m.slice buf size = bytes at hmisread
  cases hmisread with
  | space rest =>
    have hparse := parse_run_eq_done_iff.mpr
      (.inr (hbytes ▸ Irregular.flushAll rest) : Regular U _ _ ∨ Irregular (m.slice buf size) _)
    obtain ⟨l, after, htail, -⟩ := h.line hbytes hparse rfl
    rcases l.tail_space htail with ⟨extra, -, -, heq⟩ | ⟨d, -, heq⟩
    · cases extra with
      | zero => exact absurd (List.cons.inj heq).1 (by decide)
      | succ extra => exact absurd (List.cons.inj heq).1 (by decide)
    · exact absurd rfl (d.isToken.head_append heq.symm).2.2
  | word word rest hword hhead hlong hother =>
    have hparse := parse_run_eq_done_iff.mpr
      (.inr (hbytes ▸ Irregular.flushWord word rest hword hhead hlong hother) :
        Regular U _ _ ∨ Irregular (m.slice buf size) _)
    obtain ⟨l, after, htail, -⟩ := h.line hbytes hparse rfl
    rcases l.tail_space htail with ⟨extra, -, -, heq⟩ | ⟨d, hdelay, heq⟩
    · cases extra with
      | zero =>
        rw [heq] at hother
        exact hother rfl
      | succ extra =>
        rw [List.replicate_succ, List.cons_append] at heq
        exact absurd rfl (hword.head_append heq).2.1
    · obtain ⟨rfl, -⟩ :=
        hword.append_inj d.isToken (stops_cr _) (lineEndBytes_stops l.gap after) heq
      exact l.isDelay d hdelay hhead
  | delay delay gap rest hhead hrange hnonneg =>
    have hparse := parse_delayed hbytes hhead hnonneg
    obtain ⟨l, after, htail, -⟩ := h.line hbytes hparse rfl
    obtain ⟨d, hdelay, htoken, -⟩ :=
      l.tail_token htail delay.isToken hhead (lineEndBytes_stops gap rest)
    have hvalue : d.value = delay.value := by
      have hd := d.value_eq
      rw [htoken, delay.value_eq] at hd
      exact (Option.some.inj hd).symm
    exact hrange (hvalue ▸ l.delay_range d hdelay)
  | spaces delay extra rest hhead hrange =>
    have hnonneg : 0 ≤ FLUSH_ALL.toInt delay.value := by
      rw [toInt_of_range hrange]
      exact hrange.1
    have hparse := parse_delayed hbytes hhead hnonneg
    obtain ⟨l, after, htail, hprefixes⟩ := h.line hbytes hparse rfl
    obtain ⟨d, hdelay, htoken, hend⟩ :=
      l.tail_token htail delay.isToken hhead (lineEndBytes_stops (some (extra + 1)) rest)
    obtain ⟨extra', hgap⟩ := lineEndBytes_spaces (hend.trans rfl)
    -- the prefix that ends with two spaces
    let front := CommandClass.FLUSH_ALL.word ++ SP :: (delay.token ++ [SP, SP])
    have hsplit : m.slice buf size =
        front ++ (List.replicate extra SP ++ (NOREPLY ++ (CRLF ++ rest))) := by
      rw [hbytes]
      simp [front, lineEndBytes, List.replicate_succ]
    have hfront : m.slice buf front.length = front := Memory.slice_front hsplit
    have hshorter : front.length < l.bytes.length := by
      simp only [front, FlushLine.bytes, FlushLine.tail, hdelay, hgap, Option.elim_some, htoken,
        lineEndBytes, List.length_append, List.length_cons, List.length_replicate, List.length_nil,
        show CRLF.length = 2 from rfl]
      omega
    apply hprefixes front.length hshorter (.illegalFormat "'\r\n' was expected")
    rw [Refinement.parse_run, hfront, parse_two_spaces delay hhead hnonneg]
  | refused extra rest =>
    obtain ⟨cmd, hparse, hcls⟩ := h.accepts ⟨none, some (extra + 1), by simp, by simp⟩ rest
      (by simp [hbytes, FlushLine.bytes, FlushLine.tail])
    have hspaces : m.slice buf size = CommandClass.FLUSH_ALL.word ++
        SP :: SP :: (List.replicate extra SP ++ (NOREPLY ++ (CRLF ++ rest))) := by
      rw [hbytes]
      simp [lineEndBytes, List.replicate_succ]
    exact not_accepted_spaces hspaces hparse hcls
  | waits args hline hstalls =>
    have hflush : CommandClass.FLUSH_ALL.word <+: m.slice buf size := hbytes ▸ List.prefix_append _ _
    have hcomplete : CRLF <:+: m.slice buf size := by
      rw [hbytes]
      exact line_of_flush_all.mpr hline
    refine h.ne_incomplete hflush hcomplete ?_
    rw [Refinement.parse_run,
      parse_eq_incomplete_iff (hflush.length_le.trans' (by decide)) hcomplete, hbytes]
    exact .inl ⟨.FLUSH_ALL, true, args, hstalls.reached, rfl, hstalls⟩

theorem slice_prefix {n : Nat} (m : Memory) (buf : Int) (h : n ≤ size) :
    m.slice buf n <+: m.slice buf size := by
  obtain ⟨k, rfl⟩ := Nat.exists_eq_add_of_le h
  rw [Memory.slice_add]
  exact List.prefix_append _ _

/-- A flush request without repeated spaces is read as it is written. -/
theorem FlushLine.reads {l : FlushLine U} {r : FlushRequest U} {rest : List UInt8}
    (hsingle : (Request.flushAll r).SingleSpaced) (hsame : r.bytes = l.bytes)
    (hbytes : m.slice buf size = r.bytes ++ rest)
    (hdelay : r.command.delay = l.delay.elim 0 Number.value)
    (hnoreply : r.command.noreply = l.gap.isSome) :
    ∃ (l : FlushLine U) (rest : List UInt8), m.slice buf size = l.bytes ++ rest ∧
      r.command.delay = l.delay.elim 0 Number.value ∧ r.command.noreply = l.gap.isSome ∧
      ∀ n < l.bytes.length, ∀ e, (CommandParser.parse U buf n).run m ≠ .failed e := by
  refine ⟨l, rest, hsame ▸ hbytes, hdelay, hnoreply, fun n hn e hfailed => ?_⟩
  rw [← hsame] at hn
  have hle : n ≤ size := by
    have hlength := congrArg List.length hbytes
    rw [Memory.length_slice, List.length_append] at hlength
    omega
  have hcut : m.slice buf n <+: r.bytes :=
    List.prefix_of_prefix_length_le (hbytes ▸ slice_prefix m buf hle) (List.prefix_append _ _)
      (by rw [Memory.length_slice]; exact hn.le)
  have hne : m.slice buf n ≠ r.bytes := by
    intro heq
    have hlength := congrArg List.length heq
    rw [Memory.length_slice] at hlength
    exact hn.ne hlength
  rw [← Request.bytes_flushAll] at hcut hne
  rw [Refinement.parse_run, Request.parse_cut hsingle hcut hne buf] at hfailed
  cases hfailed

section Sound

variable (h : ¬ FlushMisread U (m.slice buf size))

include h

theorem accepted_of_not_misread {cmd : MemcachedCommand}
    (hparse : (CommandParser.parse U buf size).run m = .done cmd) (hcls : cmd.cls = .FLUSH_ALL) :
    ∃ (l : FlushLine U) (rest : List UInt8), m.slice buf size = l.bytes ++ rest ∧
      cmd.delay = l.delay.elim 0 Number.value ∧ cmd.noreply = l.gap.isSome ∧
      ∀ n < l.bytes.length, ∀ e, (CommandParser.parse U buf n).run m ≠ .failed e := by
  rcases flushAll_of_accepted hparse hcls with ⟨f, rest, hbytes, rfl⟩ | ⟨rest, hbytes⟩ |
    ⟨word, rest, hword, hhead, hlong, hother, hbytes⟩
  · cases f with
    | now =>
      exact FlushLine.reads (l := ⟨none, none, by simp, by simp⟩) trivial rfl hbytes rfl rfl
    | nowNoreply =>
      exact FlushLine.reads (l := ⟨none, some 0, by simp, by simp⟩) trivial rfl hbytes rfl rfl
    | delayed delay gap hhead hnonneg =>
      have hline : m.slice buf size =
          CommandClass.FLUSH_ALL.word ++ SP :: (delay.token ++ (lineEndBytes gap ++ rest)) := by
        apply hbytes.trans
        simp [FlushRequest.bytes, FlushRequest.space, FlushRequest.header]
      have hrange : 0 ≤ delay.value ∧ delay.value < 2 ^ 31 := by
        by_contra hrange
        exact h (hline ▸ .delay delay gap rest hhead hrange hnonneg)
      have hgap : gap = none ∨ gap = some 0 := by
        cases gap with
        | none => exact .inl rfl
        | some extra =>
          cases extra with
          | zero => exact .inr rfl
          | succ extra => exact absurd (hline ▸ .spaces delay extra rest hhead hrange) h
      refine FlushLine.reads (l := ⟨some delay, gap, by simpa using hhead, by simpa using hrange⟩)
        hgap ?_ hbytes (toInt_of_range hrange) rfl
      simp [FlushRequest.bytes, FlushRequest.space, FlushRequest.header, FlushLine.bytes,
        FlushLine.tail]
  · exact absurd (hbytes ▸ .space rest) h
  · exact absurd (hbytes ▸ .word word rest hword hhead hlong hother) h

theorem accepts_of_not_misread {l : FlushLine U} {rest : List UInt8}
    (hbytes : m.slice buf size = l.bytes ++ rest) :
    ∃ cmd, (CommandParser.parse U buf size).run m = .done cmd ∧ cmd.cls = .FLUSH_ALL := by
  obtain ⟨delay, gap, hhead, hrange⟩ := l
  have haccept (r : FlushRequest U) (hr : r.bytes = FlushLine.bytes ⟨delay, gap, hhead, hrange⟩) :
      ∃ cmd, (CommandParser.parse U buf size).run m = .done cmd ∧ cmd.cls = .FLUSH_ALL := by
    refine ⟨_, parse_run_eq_done_iff.mpr (.inl ⟨.flushAll r, rest, ?_, rfl⟩),
      Request.cls_command (.flushAll r) buf⟩
    rw [Request.bytes_flushAll, hr]
    exact hbytes
  cases delay with
  | none =>
    cases gap with
    | none => exact haccept .now rfl
    | some extra =>
      cases extra with
      | zero => exact haccept .nowNoreply rfl
      | succ extra =>
        have hrefused : m.slice buf size =
            CommandClass.FLUSH_ALL.word ++ (lineEndBytes (some (extra + 1)) ++ rest) := by
          rw [hbytes]
          simp [FlushLine.bytes, FlushLine.tail]
        exact absurd (hrefused ▸ .refused extra rest) h
  | some delay =>
    have hnonneg : 0 ≤ FLUSH_ALL.toInt delay.value := by
      rw [toInt_of_range (hrange delay rfl)]
      exact (hrange delay rfl).1
    refine haccept (.delayed delay gap (hhead delay rfl) hnonneg) ?_
    simp [FlushRequest.bytes, FlushRequest.space, FlushRequest.header, FlushLine.bytes,
      FlushLine.tail]

theorem rejects_of_not_misread (hflush : CommandClass.FLUSH_ALL.word <+: m.slice buf size)
    (hline : CRLF <:+: m.slice buf size)
    (hother : ∀ (l : FlushLine U) (rest : List UInt8), m.slice buf size ≠ l.bytes ++ rest) :
    ∃ e, (CommandParser.parse U buf size).run m = .failed e ∧ e.isIllegalFormat = true := by
  cases hparse : (CommandParser.parse U buf size).run m with
  | done cmd =>
    have hcls := flush_all_of_prefix (word_prefix_of_accepted hparse) hflush
    obtain ⟨l, rest, hbytes, -⟩ := accepted_of_not_misread h hparse hcls
    exact absurd hbytes (hother l rest)
  | incomplete =>
    rw [Refinement.parse_run,
      parse_eq_incomplete_iff (hflush.length_le.trans' (by decide)) hline] at hparse
    simp only at hparse
    rcases hparse with hstalls | ⟨r, rest, hbytes, -⟩
    · obtain ⟨args, hargs, hstalls⟩ := hstalls.flush hflush
      have hcomplete := line_of_flush_all.mp (hargs ▸ hline)
      exact absurd (hargs ▸ .waits args hcomplete hstalls) h
    · have hcls := flush_all_of_prefix (hbytes ▸ List.prefix_append _ _) hflush
      have hstorage := r.isStorage
      rw [hcls] at hstorage
      cases hstorage
  | failed e =>
    refine ⟨e, rfl, ?_⟩
    rw [Refinement.parse_run] at hparse
    exact (illegalFormatOnly_parse U (not_bareTouch_of_flush_all hflush) e hparse).1

end Sound

/-- What is accepted for flush_all is what is written, and is waited for while it is received, and
everything else is rejected, unless it is one of the lines that are misread. -/
theorem readsFlushAll_iff (U : CacheUtils) (m : Memory) (buf : Int) (size : Nat) :
    ReadsFlushAll U m buf size ↔ ¬ FlushMisread U (m.slice buf size) :=
  ⟨fun h hmisread => not_readsFlushAll hmisread h, fun h =>
    ⟨fun _ => accepted_of_not_misread h, fun _ _ => accepts_of_not_misread h,
      rejects_of_not_misread h⟩⟩

/-- A delay of 2^32 seconds is taken for no delay. -/
theorem not_readsFlushAll_narrowed :
    ¬ ReadsFlushAll decimalUtils (Memory.ofBytes 100 (ascii "flush_all 4294967296\r\n"))
      100 22 := by
  let delay : Number decimalUtils := ⟨ascii "4294967296", 4294967296, by decide, by decide⟩
  have hslice : (Memory.ofBytes 100 (ascii "flush_all 4294967296\r\n")).slice 100 22 =
      CommandClass.FLUSH_ALL.word ++ SP :: (delay.token ++ (lineEndBytes none ++ [])) := by
    decide +kernel
  apply not_readsFlushAll
  rw [hslice]
  exact .delay delay none [] (by decide) (by decide) (by decide)

end Parsing

end Memcarrot
