import Memcarrot.Refinement.Retrieval

open Incremental RawMemory
open RawMemory.Access (Simulates)

namespace Memcarrot.Refinement

open Utils

variable {m : Memory} {lo hi base size : Int} {args : Wire.Input}

/-- Delay, noreply and place of the parse of flush_all. -/
def FlushAt (m : Memory) (lo hi base : Int) (r : Int × Bool × Int)
    (read : Int × Bool × Wire.Input) : Prop :=
  r.1 = read.1 ∧ r.2.1 = read.2.1 ∧ At m lo hi base r.2.2 read.2.2

theorem flushArguments_simulates (U : CacheUtils) (h : ArgsAt m lo hi base size args)
    {token : Wire.Token} {c : Wire.Input} (hne : token.items ≠ [])
    (hspan : (span isTokenByte args : Verdict Thrown _) = .done (token, c)) :
    Simulates m lo hi (FlushAt m lo hi base)
      (FLUSH_ALL.arguments U base size token.items.length)
      (Wire.flushArguments U token args c) := by
  have hsize := h.size_eq
  have htoken := h.tokenAt hspan
  obtain ⟨b, bs, hargs, -⟩ := h.head
  have hhead : token.items.head? = some b := by
    obtain ⟨x, xs, hx⟩ := List.exists_cons_of_ne_nil hne
    have hrest := (Wire.span_token_eq_done_iff.mp hspan).1
    rw [hargs, hx] at hrest
    simp [hx, (List.cons.inj hrest).1]
  have hbyte : Simulates m lo hi Eq (Access.byte base : Access Thrown UInt8) (.done b) := by
    obtain ⟨ptr, rest⟩ := args
    simp only at hargs
    subst hargs
    have hread := h.at_base.byte (ε := Thrown)
    rwa [Int.add_zero] at hread
  unfold FLUSH_ALL.arguments Wire.flushArguments
  apply hbyte.step
  rw [hhead]
  by_cases hn : b = LOWER_N
  · rw [if_neg (by simp [hn]), if_neg (by simp [hn])]
    apply (checkNoreply_simulates U hargs h.at_base htoken.next hsize).bind
    rintro ⟨noreply, stop⟩ ⟨_, next⟩ ⟨rfl, hnext⟩ -
    exact .pure ⟨rfl, rfl, hnext⟩
  · rw [if_pos hn, if_pos (by simp [hn])]
    have hnumber := strToLongDirect_simulates U htoken
    simp only [Int.add_zero, Int.sub_zero] at hnumber
    apply hnumber.bind
    rintro v _ rfl -
    refine (throwIf_simulates _ Iff.rfl).bind fun _ _ _ _ => ?_
    refine scan_cases htoken.next rfl (by omega) (fun hgap => ?_)
      fun gap word hgap hat => ?_
    · rw [if_neg (by omega)]
      simp only [hgap]
      exact .pure ⟨rfl, rfl, htoken.next⟩
    simp only [hgap]
    by_cases hempty : gap.items = []
    · rw [if_neg (by simp [hempty])]
      simp only [hempty, if_true]
      exact .pure ⟨rfl, rfl, htoken.next⟩
    · have hpos : 0 < gap.items.length := List.length_pos_of_ne_nil hempty
      rw [if_pos (by omega)]
      simp only [hempty, if_false]
      obtain ⟨-, -, -, -, stop, tail, hword, -⟩ := span_eq_done_iff.mp hgap
      apply (checkNoreply_simulates U hword hat htoken.next hsize).bind
      rintro ⟨noreply, stop⟩ ⟨_, next⟩ ⟨rfl, hnext⟩ -
      exact .pure ⟨rfl, rfl, hnext⟩

theorem flushAll_simulates (U : CacheUtils) (h : ArgsAt m lo hi base size args) :
    Simulates m lo hi Eq (FLUSH_ALL.parse U base size) (Wire.flushAll U args) := by
  have hsize := h.size_eq
  have hbase := h.base_eq
  unfold FLUSH_ALL.parse Wire.flushAll
  refine Simulates.rethrow ?_ _
  refine scan_bind h.at_base (by omega) hsize ?_ fun token c hspan _ => ?_
  · rw [returnFalseIf_true rfl]
    exact .incomplete
  have htoken := h.tokenAt hspan
  rw [returnFalseIf_false (by omega)]
  have harguments : Simulates m lo hi (FlushAt m lo hi base)
      (if (token.items.length : Int) > 0 then
        FLUSH_ALL.arguments U base size token.items.length
      else pure (0, false, (token.items.length : Int)))
      (if token.items ≠ [] then Wire.flushArguments U token args c
      else .done (0, false, c)) := by
    by_cases hempty : token.items = []
    · rw [if_neg (by simp [hempty]), if_neg (by simp [hempty])]
      exact .pure ⟨rfl, rfl, htoken.next⟩
    · have hpos : 0 < token.items.length := List.length_pos_of_ne_nil hempty
      rw [if_pos (by omega), if_pos hempty]
      exact flushArguments_simulates U h hempty hspan
  apply harguments.bind
  rintro ⟨delay, noreply, stop⟩ ⟨_, _, c⟩ ⟨rfl, rfl, hat⟩ -
  apply (skipCRLF_simulates _ hat hsize).bind
  intro last next hnext _
  have hptr := hat.ptr_eq
  have hlast := hnext.ptr_eq
  simp only at hptr ⊢
  have hkeep : c.ptr = args.ptr ↔ stop = 0 := by omega
  simp only [show next.ptr - args.ptr = last by omega, hkeep]
  exact .pure rfl

theorem twoBytes_simulates (cls : CommandClass) (h : ArgsAt m lo hi base size args) :
    Simulates m lo hi Eq (parseTwoBytes cls base size) (Wire.twoBytes cls args) := by
  have hsize := h.size_eq
  have hbase := h.base_eq
  have hends := h.at_base.views.ends
  exact (returnFalseIf_simulates (by omega)).bind fun _ _ _ _ => .pure rfl

theorem stats_simulates (U : CacheUtils) (h : ArgsAt m lo hi base size args) :
    Simulates m lo hi Eq (STATS.parse U base size) (Wire.stats args) := by
  have hsize := h.size_eq
  have hbase := h.base_eq
  have hends := h.at_base.views.ends
  have hcrlf : CRLF.length = 2 := rfl
  unfold STATS.parse Wire.stats
  refine (returnFalseIf_simulates (by omega)).bind fun _ _ _ hlong => ?_
  have hlong := Wire.incompleteIf_eq_done_iff.mp hlong
  by_cases hmore : size > 2
  · have hne : args.rest ≠ CRLF := by
      intro heq
      rw [heq, hcrlf] at hends
      omega
    rw [if_pos hmore, if_neg hne]
    exact .throw _
  · rw [if_neg hmore]
    have htwo : args.rest.length = 2 := by omega
    have hread : Simulates m lo hi Eq (compareTo U base 2 CRLF)
        (.done (U.compareTo args.rest CRLF)) := by
      obtain ⟨ptr, rest⟩ := args
      simp only at htwo
      have hat : At m lo hi base 0 ⟨ptr, rest ++ []⟩ := by
        rw [List.append_nil]
        exact h.at_base
      have hbytes := hat.bytes (ε := Thrown)
      rw [htwo, Int.add_zero] at hbytes
      exact hbytes.step (.pure rfl)
    apply hread.step
    have hcompare := U.compareTo_eq_zero_iff args.rest CRLF (by rw [htwo, hcrlf])
    by_cases heq : args.rest = CRLF
    · rw [if_neg (by simpa using hcompare.mpr heq), if_pos heq]
      exact .pure rfl
    · rw [if_pos (mt hcompare.mp heq), if_neg heq]
      exact .throw _

theorem incr_simulates (U : CacheUtils) (cls : CommandClass)
    (h : ArgsAt m lo hi base size args) :
    Simulates m lo hi Eq (INCR.parse U cls base size) (Wire.incr U cls args) := by
  unfold INCR.parse Wire.incr
  exact keyNumber_simulates U _ _ h

theorem touch_simulates (U : CacheUtils) (h : ArgsAt m lo hi base size args) :
    Simulates m lo hi Eq (TOUCH.parse U base size) (Wire.touch U args) := by
  unfold TOUCH.parse Wire.touch
  exact keyNumber_simulates U _ _ h

theorem arguments_simulates (U : CacheUtils) (cls : CommandClass)
    (h : ArgsAt m lo hi base size args) :
    Simulates m lo hi Eq (cls.parse U base size) (Wire.arguments U cls args) := by
  cases cls with
  | SET | ADD | CAS | APPEND | PREPEND | REPLACE => exact storage_simulates U _ h
  | GET | GETS | GAT | GATS =>
    obtain ⟨b, bs, hargs, -⟩ := h.head
    exact retrieval_simulates U _ h.at_base h.size_eq (by simp [hargs])
  | INCR | DECR => exact incr_simulates U _ h
  | TOUCH => exact touch_simulates U h
  | DELETE => exact delete_simulates U h
  | FLUSH_ALL => exact flushAll_simulates U h
  | QUIT | VERSION | SHUTDOWN => exact twoBytes_simulates _ h
  | STATS => exact stats_simulates U h
  | SAVE | BGSAVE => exact .incomplete

theorem firstMatch_simulates (U : CacheUtils) {ptr : Int} {word back : List UInt8}
    (h : At m lo hi base 0 ⟨ptr, word ++ back⟩) (words : List (List UInt8 × CommandClass))
    (hlen : ∀ entry ∈ words, entry.1.length = word.length) :
    Simulates m lo hi Eq (CommandParser.firstMatch U base word.length words)
      (match (words.find? fun entry => entry.1 = word).map (·.2) with
      | some cls => .done cls
      | none => .failed (.unsupportedCommand word)) := by
  have hbytes := h.bytes (ε := Thrown)
  rw [Int.add_zero] at hbytes
  induction words with
  | nil => exact hbytes.step (.throw _)
  | cons entry words ih =>
    obtain ⟨candidate, cls⟩ := entry
    unfold CommandParser.firstMatch
    have hread : Simulates m lo hi Eq (compareTo U base word.length candidate)
        (.done (U.compareTo word candidate)) := hbytes.step (.pure rfl)
    apply hread.step
    have hcompare := U.compareTo_eq_zero_iff word candidate (hlen (candidate, cls) (by simp)).symm
    by_cases heq : word = candidate
    · rw [if_pos (hcompare.mpr heq), List.find?_cons_of_pos (by simpa using heq.symm)]
      exact .pure rfl
    · rw [if_neg (mt hcompare.mp heq), List.find?_cons_of_neg (by simpa using Ne.symm heq)]
      exact ih fun entry hentry => hlen entry (by simp [hentry])

theorem length_of_mem_commands {len : Nat} {entry : List UInt8 × CommandClass}
    (h : entry ∈ CommandParser.commands len) : entry.1.length = len := by
  unfold CommandParser.commands at h
  split at h <;> simp only [List.mem_cons, List.not_mem_nil, or_false] at h
  all_goals rcases h with rfl | rfl | rfl | rfl | rfl | rfl
  all_goals rfl

/-- Where at most one space stands behind the command word, the arguments are what the parse method
of the class expects. -/
theorem argsAt_of_span {c args : Wire.Input} {gap : Wire.Token} {off ptr : Int}
    (hat : At m lo hi base off c) (hstops : Wire.Stops c.rest)
    (hspan : (span isSpace c : Verdict Thrown _) = .done (gap, args))
    (hargs : At m lo hi base (gap.items.length + off) args) (hone : ¬ gap.items.length > 1)
    (hbase : ptr = base + (gap.items.length + off)) (hsize : ptr + size = hi) :
    ArgsAt m lo hi ptr size args := by
  obtain ⟨n, b, rest, rfl, rfl, hb, hrest⟩ := Wire.span_space_eq_done_iff.mp hspan
  have hptr := hargs.ptr_eq
  refine ⟨⟨by omega, hargs.low, hargs.views⟩, hsize, ⟨b, rest, rfl, hb⟩, ?_⟩
  obtain ⟨start, items⟩ := c
  simp only [List.length_replicate] at hone hrest hptr hbase ⊢
  subst hrest
  obtain rfl | rfl : n = 0 ∨ n = 1 := by omega
  · exact .inl hstops
  · have hbefore := hat.ptr_eq
    simp only at hbefore
    refine .inr ⟨?_, ?_, ?_⟩
    · simp only
      omega
    · have hlow := hat.low
      simp only at hlow ⊢
      omega
    · have hviews := hat.views
      rwa [show start + ((1 : Nat) : Int) - 1 = start by omega]

/-- The parser reads the received bytes only, and decides as the parser over byte lists. -/
theorem parse_simulates (U : CacheUtils) (m : Memory) (buf : Int) (size : Nat) :
    Simulates m buf (buf + size) Eq (CommandParser.parse U buf size)
      (Wire.parse U ⟨buf, m.slice buf size⟩) := by
  have hviews := Views.of_slice m buf size
  have hat : At m buf (buf + size) buf 0 ⟨buf, m.slice buf size⟩ :=
    ⟨by simp, by simp, hviews⟩
  unfold CommandParser.parse Wire.parse
  refine (returnFalseIf_simulates (by simp only [Memory.length_slice]; omega)).bind
    fun _ _ _ _ => ?_
  refine scan_bind hat (by omega) rfl ?_ fun gap c hgap hc => ?_
  · rw [throwIf_false (by omega), returnFalseIf_true (by omega)]
    exact .incomplete
  refine (throwIf_simulates _ ?_).bind fun _ _ _ hno => ?_
  · rw [Ne, ← List.length_eq_zero_iff]
    omega
  have hempty : gap.items = [] := by simpa using hno
  rw [hempty] at hc
  rw [returnFalseIf_false (by omega), hempty]
  simp only [List.length_nil, Int.natCast_zero, Int.add_zero, Int.sub_zero] at hc ⊢
  unfold Wire.commandWord
  rw [Verdict.bind_assoc]
  refine scan_bind hc (by omega) rfl ?_ fun word afterWord hword hafter => ?_
  · rw [returnFalseIf_true (by omega)]
    exact .incomplete
  obtain ⟨hrest, -, -, -, hstops⟩ := Wire.span_token_eq_done_iff.mp hword
  rw [Int.add_zero] at hafter
  rw [returnFalseIf_false (by omega)]
  have hfirst : At m buf (buf + size) buf 0 ⟨c.ptr, word.items ++ afterWord.rest⟩ := by
    rw [← hrest]
    exact hc
  have hmatch := firstMatch_simulates U hfirst
    (CommandParser.commands word.items.length) fun entry h => length_of_mem_commands h
  simp only [Int.toNat_natCast]
  unfold Wire.classOf
  cases hcls : ((CommandParser.commands word.items.length).find?
      fun entry => entry.1 = word.items).map (·.2) with
  | none =>
    rw [hcls] at hmatch
    exact hmatch.bind (g := fun _ => .failed (.unsupportedCommand word.items))
      fun _ _ _ h => by cases h
  | some cls =>
    rw [hcls] at hmatch
    apply hmatch.step
    simp only [Verdict.pure_eq_done, Verdict.done_bind]
    refine scan_bind hafter rfl (by omega) ?_ fun gap args hgap hargs => ?_
    · rw [returnFalseIf_true rfl]
      exact .incomplete
    rw [returnFalseIf_false (by omega)]
    refine (throwIf_simulates _ (by simp only; omega)).bind fun _ _ _ hone => ?_
    exact arguments_simulates U cls (argsAt_of_span hafter hstops hgap hargs
      (Wire.failIf_eq_done_iff.mp hone) (by omega) (by omega))

/-- What the parser makes of a buffer is what the bytes of the buffer say. -/
theorem parse_run (U : CacheUtils) (m : Memory) (buf : Int) (size : Nat) :
    (CommandParser.parse U buf size).run m = Wire.parse U ⟨buf, m.slice buf size⟩ :=
  (parse_simulates U m buf size).verdict.eq

end Memcarrot.Refinement
