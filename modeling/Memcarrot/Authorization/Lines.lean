import Memcarrot.Authorization.AuthorizationHandler
import Memcarrot.Segments.Infix

namespace Memcarrot

/-- The bytes that the channel delivers before it is at its end, fails or is waited for too long,
however many reads are without a byte. -/
def delivered : List ChannelRead → List UInt8
  | .byte b :: reads => b :: delivered reads
  | .nothing :: reads => delivered reads
  | .endOfStream :: _ | .ioException :: _ | .timeout :: _ | [] => []

/-- The bytes in front of the first CR LF pair are ASCII. -/
def AsciiLine (reads : List ChannelRead) : Prop :=
  ∀ front back, delivered reads = front ++ (CRLF ++ back) → ¬ CRLF <:+: front →
    ∀ b ∈ front, b < 0x80

theorem toNat_toChar (b : UInt8) :
    (toChar b).toNat = if b < 0x80 then b.toNat else 0xFF00 + b.toNat := by
  have hb := b.toNat_lt
  have hvalid : (if b < 0x80 then b.toNat else 0xFF00 + b.toNat).isValidChar := by
    split_ifs
    · exact .inl (by omega)
    · exact .inr ⟨by omega, by omega⟩
  rw [toChar, Char.ofNat, dif_pos hvalid]
  rfl

theorem toChar_of_ascii {b : UInt8} (hb : b < 0x80) : toChar b = asciiChar b := by
  rw [toChar, if_pos hb]
  rfl

theorem map_toChar_of_ascii {bytes : List UInt8} (h : ∀ b ∈ bytes, b < 0x80) :
    bytes.map toChar = bytes.map asciiChar :=
  List.map_congr_left fun b hb => toChar_of_ascii (h b hb)

/-- A character below 0x80 is the cast of the byte of its code only. -/
theorem toChar_eq_iff {b : UInt8} {c : Char} (hc : c.toNat < 0x80) :
    toChar b = c ↔ b.toNat = c.toNat := by
  have hcode := toNat_toChar b
  constructor
  · rintro rfl
    split_ifs at hcode with hlow
    · exact hcode.symm
    · omega
  · intro h
    have hlow : b < 0x80 := by
      rw [UInt8.lt_iff_toNat_lt, h]
      exact hc
    rw [if_pos hlow, h] at hcode
    exact Char.toNat_inj.mp hcode

theorem toChar_eq_cr_iff {b : UInt8} : toChar b = '\r' ↔ b = CR := by
  rw [toChar_eq_iff (by decide), ← UInt8.toNat_inj]
  rfl

theorem toChar_eq_lf_iff {b : UInt8} : toChar b = '\n' ↔ b = LF := by
  rw [toChar_eq_iff (by decide), ← UInt8.toNat_inj]
  rfl

section Loop

variable (line : Text) {reads : List ChannelRead}

/-- Once a CR was seen, the loop ends at the next LF, and drops the CRs in front of it. -/
theorem readLineLoop_lf {b c : List UInt8} (h : delivered reads = b ++ LF :: c) (hb : LF ∉ b) :
    ∃ rest, readLineLoop true line reads =
        (.line (line ++ (b.filter (· ≠ CR)).map toChar), rest) ∧ delivered rest = c := by
  induction reads generalizing line b with
  | nil => simp [delivered] at h
  | cons read reads ih =>
    cases read with
    | byte x =>
      cases b with
      | nil =>
        obtain ⟨rfl, htail⟩ := List.cons.inj h
        refine ⟨reads, ?_, htail⟩
        rw [readLineLoop, if_neg (by decide), if_pos ⟨rfl, rfl⟩]
        simp
      | cons y b =>
        obtain ⟨rfl, htail⟩ := List.cons.inj h
        rw [List.mem_cons, not_or] at hb
        rw [readLineLoop]
        by_cases hx : x = CR
        · rw [if_pos (toChar_eq_cr_iff.mpr hx)]
          simpa [hx] using ih line htail hb.2
        · rw [if_neg (mt toChar_eq_cr_iff.mp hx),
            if_neg fun hlf => hb.1 (toChar_eq_lf_iff.mp hlf.2).symm]
          simpa [hx] using ih (line ++ [toChar x]) htail hb.2
    | nothing => exact ih line h hb
    | endOfStream | ioException | timeout => simp [delivered] at h

theorem readLineLoop_noLF (h : LF ∉ delivered reads) (gotCR : Bool) (text : Text) :
    (readLineLoop gotCR line reads).1 ≠ .line text := by
  induction reads generalizing line gotCR with
  | nil => simp [readLineLoop]
  | cons read reads ih =>
    cases read with
    | byte x =>
      rw [delivered, List.mem_cons, not_or] at h
      rw [readLineLoop]
      split_ifs with hcr hlf
      · exact ih line h.2 true
      · exact absurd (toChar_eq_lf_iff.mp hlf.2).symm h.1
      · exact ih _ h.2 gotCR
    | nothing => exact ih line h gotCR
    | endOfStream | ioException | timeout => simp [readLineLoop]

/-- The bytes in front of the first CR are kept. -/
theorem readLineLoop_cr {a tail : List UInt8} (h : delivered reads = a ++ CR :: tail)
    (ha : CR ∉ a) :
    ∃ rest, readLineLoop false line reads = readLineLoop true (line ++ a.map toChar) rest ∧
      delivered rest = tail := by
  induction reads generalizing line a with
  | nil => simp [delivered] at h
  | cons read reads ih =>
    cases read with
    | byte x =>
      cases a with
      | nil =>
        obtain ⟨rfl, htail⟩ := List.cons.inj h
        refine ⟨reads, ?_, htail⟩
        rw [readLineLoop, if_pos (toChar_eq_cr_iff.mpr rfl)]
        simp
      | cons y a =>
        obtain ⟨rfl, htail⟩ := List.cons.inj h
        rw [List.mem_cons, not_or] at ha
        rw [readLineLoop, if_neg fun hcr => ha.1 (toChar_eq_cr_iff.mp hcr).symm,
          if_neg (by simp)]
        simpa using ih (line ++ [toChar x]) htail ha.2
    | nothing => exact ih line h ha
    | endOfStream | ioException | timeout => simp [delivered] at h

theorem readLineLoop_noCR (h : CR ∉ delivered reads) (text : Text) :
    (readLineLoop false line reads).1 ≠ .line text := by
  induction reads generalizing line with
  | nil => simp [readLineLoop]
  | cons read reads ih =>
    cases read with
    | byte x =>
      rw [delivered, List.mem_cons, not_or] at h
      rw [readLineLoop, if_neg fun hcr => h.1 (toChar_eq_cr_iff.mp hcr).symm, if_neg (by simp)]
      exact ih _ h.2
    | nothing => exact ih line h
    | endOfStream | ioException | timeout => simp [readLineLoop]

end Loop

section ReadLine

variable {reads : List ChannelRead} {a b c : List UInt8}

/-- What readLine does once a CR and, behind it, an LF were delivered: it drops every CR up to the
LF and leaves what follows the LF on the channel. -/
theorem readLine_of_split (h : delivered reads = a ++ CR :: (b ++ LF :: c)) (ha : CR ∉ a)
    (hb : LF ∉ b) :
    ∃ rest, readLine reads = (.line ((a ++ b.filter (· ≠ CR)).map toChar), rest) ∧
      delivered rest = c := by
  obtain ⟨afterCR, hcr, hafter⟩ := readLineLoop_cr [] h ha
  obtain ⟨rest, hlf, hrest⟩ := readLineLoop_lf ([] ++ a.map toChar) hafter hb
  refine ⟨rest, ?_, hrest⟩
  rw [readLine, hcr, hlf, List.nil_append, ← List.map_append]

/-- Without a CR and an LF behind it there is no line. -/
theorem exists_split_of_readLine {text : Text} (h : (readLine reads).1 = .line text) :
    ∃ a b c, delivered reads = a ++ CR :: (b ++ LF :: c) ∧ CR ∉ a ∧ LF ∉ b := by
  have hcr : CR ∈ delivered reads := by
    by_contra hnot
    exact readLineLoop_noCR [] hnot text h
  obtain ⟨a, tail, hsplit, ha⟩ := List.eq_append_cons_of_mem hcr
  obtain ⟨afterCR, hloop, hafter⟩ := readLineLoop_cr [] hsplit ha
  rw [readLine, hloop] at h
  have hlf : LF ∈ delivered afterCR := by
    by_contra hnot
    exact readLineLoop_noLF _ hnot true text h
  obtain ⟨b, c, htail, hb⟩ := List.eq_append_cons_of_mem hlf
  exact ⟨a, b, c, by rw [hsplit, ← hafter, htail], ha, hb⟩

end ReadLine

/-- A line is what precedes the first CR LF pair, as characters, and what follows the pair is left
on the channel. Without such a pair there is no line. -/
structure FramesLine (reads : List ChannelRead) : Prop where
  line : ∀ front back, delivered reads = front ++ (CRLF ++ back) → ¬ CRLF <:+: front →
    ∃ rest, readLine reads = (.line (front.map asciiChar), rest) ∧ delivered rest = back
  unfinished : ¬ CRLF <:+: delivered reads → ∀ text, (readLine reads).1 ≠ .line text

namespace FramesLine

variable {reads : List ChannelRead} {front back a b c : List UInt8}

/-- If bytes stand between the first CR and the next LF, the CR is part of the line. -/
theorem cr_mem_front (hfront : delivered reads = front ++ (CRLF ++ back))
    (hsplit : delivered reads = a ++ CR :: (b ++ LF :: c)) (ha : CR ∉ a) (hb : LF ∉ b)
    (hne : b ≠ []) : CR ∈ front := by
  by_contra hnot
  obtain ⟨-, htail⟩ := Segments.append_cons_inj_of_first ha hnot (hsplit.symm.trans hfront)
  cases b with
  | nil => exact hne rfl
  | cons y b =>
    obtain ⟨rfl, -⟩ := List.cons.inj htail
    exact hb List.mem_cons_self

/-- If nothing stands between the first CR and the next LF, that CR is the one of the first
pair. -/
theorem cr_not_mem_front (hfront : delivered reads = front ++ (CRLF ++ back))
    (hfirst : ¬ CRLF <:+: front)
    (h : ∀ a b c, delivered reads = a ++ CR :: (b ++ LF :: c) → CR ∉ a → LF ∉ b → b = []) :
    CR ∉ front := by
  intro hmem
  obtain ⟨a, d, rfl, ha⟩ := List.eq_append_cons_of_mem hmem
  by_cases hlf : LF ∈ d
  · obtain ⟨b, e, rfl, hb⟩ := List.eq_append_cons_of_mem hlf
    have hnil := h a b (e ++ (CRLF ++ back)) (by rw [hfront]; simp) ha hb
    subst hnil
    exact hfirst ⟨a, e, by simp [CRLF]⟩
  · have hnil := h a (d ++ [CR]) back (by rw [hfront]; simp [CRLF]) ha
      (by simpa using ⟨hlf, by decide⟩)
    simp at hnil

end FramesLine

/-- Lines are framed by the first CR LF pair exactly if nothing stands between the first CR and the
next LF: the loop drops every CR, and ends at the first LF behind one. -/
theorem frames_line_iff {reads : List ChannelRead} (hascii : AsciiLine reads) :
    FramesLine reads ↔
      ∀ a b c, delivered reads = a ++ CR :: (b ++ LF :: c) → CR ∉ a → LF ∉ b → b = [] := by
  constructor
  · intro h a b c hsplit ha hb
    by_contra hne
    obtain ⟨rest, hread, -⟩ := readLine_of_split hsplit ha hb
    by_cases hpair : CRLF <:+: delivered reads
    · -- The line should contain the first CR, but readLine drops it.
      obtain ⟨front, back, hfront, hfirst⟩ := Segments.exists_first_infix (by decide) hpair
      have hmem := FramesLine.cr_mem_front hfront hsplit ha hb hne
      obtain ⟨rest', hline, -⟩ := h.line front back hfront hfirst
      have hcrText : '\r' ∈ front.map asciiChar := List.mem_map.mpr ⟨CR, hmem, rfl⟩
      rw [LineRead.line.inj (congrArg Prod.fst (hline.symm.trans hread))] at hcrText
      obtain ⟨x, hx, hxcr⟩ := List.mem_map.mp hcrText
      rw [toChar_eq_cr_iff.mp hxcr] at hx
      rcases List.mem_append.mp hx with hx | hx
      · exact ha hx
      · simp at hx
    · exact h.unfinished hpair _ (congrArg Prod.fst hread)
  · intro h
    refine ⟨fun front back hsplit hfirst => ?_, fun hpair text hread => ?_⟩
    · have hcr := FramesLine.cr_not_mem_front hsplit hfirst h
      obtain ⟨rest, hline, hrest⟩ := readLine_of_split (b := []) hsplit hcr (by simp)
      refine ⟨rest, ?_, hrest⟩
      rw [hline, ← map_toChar_of_ascii (hascii front back hsplit hfirst)]
      simp
    · obtain ⟨a, b, c, hsplit, ha, hb⟩ := exists_split_of_readLine hread
      have hnil := h a b c hsplit ha hb
      subst hnil
      exact hpair ⟨a, c, by rw [hsplit]; simp [CRLF]⟩

/-- A line that comes in two parts, with what follows it, a byte that is not ASCII. -/
theorem frames_line_parts :
    FramesLine [.byte 0x61, .nothing, .byte CR, .byte LF, .byte 0xE9, .timeout] := by
  have hpair : ∀ a b c, delivered [.byte 0x61, .nothing, .byte CR, .byte LF, .byte 0xE9, .timeout] =
      a ++ CR :: (b ++ LF :: c) → CR ∉ a → LF ∉ b → b = [] := by
    intro a b c hsplit ha hb
    have hfirst : ([0x61] : List UInt8) ++ CR :: [LF, 0xE9] = a ++ CR :: (b ++ LF :: c) := hsplit
    obtain ⟨-, htail⟩ := Segments.append_cons_inj_of_first (by decide) ha hfirst
    have hnext : ([] : List UInt8) ++ LF :: [0xE9] = b ++ LF :: c := htail
    exact (Segments.append_cons_inj_of_first (by simp) hb hnext).1.symm
  refine (frames_line_iff fun front back hsplit hfirst => ?_).mpr hpair
  have hline : ([0x61] : List UInt8) ++ CR :: [LF, 0xE9] = front ++ CR :: (LF :: back) := hsplit
  have hcr := FramesLine.cr_not_mem_front hsplit hfirst hpair
  obtain ⟨rfl, -⟩ := Segments.append_cons_inj_of_first (by decide) hcr hline
  decide +kernel

/-- A CR in a line is dropped. -/
theorem not_frames_line_cr :
    ¬ ∀ reads, AsciiLine reads → FramesLine reads := by
  intro h
  have hascii : AsciiLine [.byte 0x61, .byte CR, .byte 0x62, .byte CR, .byte LF] := by
    intro front back hsplit hfirst b hb
    have hall : ∀ b ∈ ([0x61, CR, 0x62, CR, LF] : List UInt8), b < 0x80 := by decide +kernel
    have hmem : b ∈ front ++ (CRLF ++ back) := List.mem_append_left _ hb
    rw [← hsplit] at hmem
    exact hall b hmem
  obtain ⟨rest, hline, -⟩ := (h [.byte 0x61, .byte CR, .byte 0x62, .byte CR, .byte LF]
    hascii).line [0x61, CR, 0x62] [] rfl (by decide)
  have hdropped : LineRead.line ['a', 'b'] = .line ['a', '\r', 'b'] := congrArg Prod.fst hline
  exact absurd hdropped (by decide)

end Memcarrot
