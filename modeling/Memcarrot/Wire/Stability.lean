import Mathlib.Algebra.Group.Basic
import Memcarrot.Wire.Opening
import Memcarrot.Wire.TokenCount

open Incremental

namespace Memcarrot

/-- The same command with all addresses shifted. -/
def Slice.move (shift : Int) (slice : Slice) : Slice := ⟨slice.ptr + shift, slice.size⟩

/-- The command that is parsed from the same bytes at a shifted address. -/
def MemcachedCommand.move (shift : Int) (cmd : MemcachedCommand) : MemcachedCommand :=
  { cmd with
    keyPtr := if cmd.cls.isAbstract && !cmd.cls.isRetrieval then cmd.keyPtr + shift else cmd.keyPtr
    valPtr := if cmd.cls.isStorage then cmd.valPtr + shift else cmd.valPtr
    keys := cmd.keys.map (Slice.move shift) }

namespace Wire

section Moves

variable {shift : Int} {more : List UInt8}

theorem incompleteIf_below {condition condition' : Prop} [Decidable condition]
    [Decidable condition'] (h : condition' → condition) :
    Verdict.Below (fun _ _ => True) (incompleteIf condition) (incompleteIf condition') := by
  unfold incompleteIf
  by_cases hc : condition
  · rw [if_pos hc]
    exact .incomplete _
  · rw [if_neg hc, if_neg fun hc' => hc (h hc')]
    exact .done trivial

theorem failIf_below {condition condition' : Prop} [Decidable condition]
    [Decidable condition'] (msg : String) (h : condition ↔ condition') :
    Verdict.Below (fun _ _ => True) (failIf condition msg) (failIf condition' msg) :=
  Verdict.Below.ite h (fun _ => .failed _) fun _ => .done trivial

theorem keyField_below (c : Input) :
    Verdict.Below (Moved (fun key key' => key' = key.move shift) shift more) (keyField c)
      (keyField (c.move shift more)) := by
  apply (span_below isTokenByte c shift more).bind
  rintro ⟨key, next⟩ ⟨-, -⟩ ⟨rfl, rfl⟩ -
  refine (incompleteIf_below (by simp)).bind fun _ _ _ _ => ?_
  exact .done ⟨rfl, rfl⟩

theorem nextField_below (msg : String) (c : Input) :
    Verdict.Below (Moved (fun token token' => token' = token.move shift) shift more)
      (nextField msg c) (nextField msg (c.move shift more)) := by
  apply (span_below isSpace c shift more).bind
  rintro ⟨gap, next⟩ ⟨-, -⟩ ⟨rfl, rfl⟩ -
  refine (incompleteIf_below (by simp)).bind fun _ _ _ _ => ?_
  refine (failIf_below msg (by simp)).bind fun _ _ _ _ => ?_
  apply (span_below isTokenByte next shift more).bind
  rintro ⟨token, next⟩ ⟨-, -⟩ ⟨rfl, rfl⟩ -
  refine (incompleteIf_below (by simp)).bind fun _ _ _ _ => ?_
  exact .done ⟨rfl, rfl⟩

@[simp] theorem number_move (U : CacheUtils) (token : Token) :
    number U (token.move shift) = number U token := rfl

/-- Whether a word is noreply does not depend on what follows its first nine bytes. -/
theorem checkNoreply_below {word : Input} (back : Input) (hword : word.rest ≠ []) :
    Verdict.Below (Moved Eq shift more) (checkNoreply word back)
      (checkNoreply (word.move shift more) (back.move shift more)) := by
  cases h : checkNoreply word back with
  | incomplete => exact .incomplete _
  | failed e => exact absurd h checkNoreply_ne_failed
  | done read =>
    obtain ⟨noreply, next⟩ := read
    have hmoved : checkNoreply (word.move shift more) (back.move shift more) =
        .done (noreply, next.move shift more) := by
      rw [checkNoreply_eq_done_iff]
      rcases checkNoreply_eq_done_iff.mp h with ⟨rfl, hrest, hptr, hlong⟩ | ⟨rfl, rfl, hother⟩
      · refine .inl ⟨rfl, by simp [hrest], ?_, ?_⟩
        · simp only [Cursor.move_ptr, hptr]
          omega
        · simp only [Cursor.move_rest, List.length_append]
          omega
      · refine .inr ⟨rfl, rfl, fun hn => ?_⟩
        simp only [Cursor.move_rest, List.head?_append_of_ne_nil _ hword] at hn
        obtain ⟨hlong, hne⟩ := hother hn
        rw [Cursor.move_rest, List.take_append_of_le_length (by omega), List.length_append]
        exact ⟨by omega, hne⟩
    rw [hmoved]
    exact .done ⟨rfl, rfl⟩

theorem noreplyField_below (c : Input) :
    Verdict.Below (Moved Eq shift more) (noreplyField c)
      (noreplyField (c.move shift more)) := by
  apply (span_below isSpace c shift more).bind
  rintro ⟨gap, word⟩ ⟨-, -⟩ ⟨rfl, rfl⟩ hgap
  obtain ⟨-, -, -, -, stop, rest, hword, -⟩ := span_eq_done_iff.mp hgap
  exact checkNoreply_below c (by simp [hword])

theorem skipCRLF_below (msg : String) (c : Input) :
    Verdict.Below (fun next next' => next' = next.move shift more) (skipCRLF msg c)
      (skipCRLF msg (c.move shift more)) := by
  obtain ⟨ptr, rest⟩ := c
  match rest with
  | [] | [_] => exact .incomplete _
  | first :: second :: rest =>
    refine (failIf_below msg Iff.rfl).bind fun _ _ _ _ => ?_
    refine (failIf_below msg Iff.rfl).bind fun _ _ _ _ => ?_
    refine .done ?_
    have hptr : ptr + shift + 2 = ptr + 2 + shift := by omega
    exact congrArg (Cursor.mk · (rest ++ more)) hptr

theorem lineEnd_below (msg : String) (c : Input) :
    Verdict.Below (Moved Eq shift more) (lineEnd msg c) (lineEnd msg (c.move shift more)) := by
  apply (noreplyField_below c).bind
  rintro ⟨noreply, next⟩ ⟨-, -⟩ ⟨rfl, rfl⟩ -
  refine (skipCRLF_below msg next).bind fun next _ hnext _ => ?_
  exact .done ⟨rfl, hnext⟩

theorem casField_below (U : CacheUtils) (cls : CommandClass) (c : Input) :
    Verdict.Below (Moved Eq shift more) (casField U cls c)
      (casField U cls (c.move shift more)) := by
  unfold casField
  cases cls.isCAS with
  | false => exact .done ⟨rfl, rfl⟩
  | true =>
    apply (nextField_below _ c).bind
    rintro ⟨token, next⟩ ⟨-, -⟩ ⟨rfl, rfl⟩ -
    refine (Verdict.Below.refl (number U token)).bind fun cas _ hcas _ => ?_
    exact .done ⟨hcas, rfl⟩

/-- The relation between the commands that two parsers of one input moved by `shift` yield. -/
abbrev MovedCommand (shift : Int) (cmd cmd' : MemcachedCommand) : Prop := cmd' = cmd.move shift

theorem storage_below (U : CacheUtils) {cls : CommandClass} (hcls : cls.isStorage = true)
    (args : Input) :
    Verdict.Below (MovedCommand shift) (storage U cls args)
      (storage U cls (args.move shift more)) := by
  have hkeyed : (cls.isAbstract && !cls.isRetrieval) = true := by
    simp [CommandClass.isAbstract_of_isStorage hcls]
  refine Verdict.Below.rethrow ?_ _
  apply (keyField_below args).bind
  rintro ⟨key, c⟩ ⟨-, -⟩ ⟨rfl, rfl⟩ -
  apply (nextField_below _ c).bind
  rintro ⟨token, c⟩ ⟨-, -⟩ ⟨rfl, rfl⟩ -
  apply (Verdict.Below.refl (number U token)).bind
  rintro flags _ rfl -
  refine (failIf_below _ Iff.rfl).bind fun _ _ _ _ => ?_
  refine (nextField_below _ c).bind ?_
  rintro ⟨token, c⟩ ⟨-, -⟩ ⟨rfl, rfl⟩ -
  apply (Verdict.Below.refl (number U token)).bind
  rintro exptime _ rfl -
  apply (nextField_below _ c).bind
  rintro ⟨token, c⟩ ⟨-, -⟩ ⟨rfl, rfl⟩ -
  apply (Verdict.Below.refl (number U token)).bind
  rintro valSize _ rfl -
  refine (failIf_below _ Iff.rfl).bind fun _ _ _ _ => ?_
  refine (casField_below U cls c).bind ?_
  rintro ⟨cas, c⟩ ⟨-, -⟩ ⟨rfl, rfl⟩ -
  apply (lineEnd_below _ c).bind
  rintro ⟨noreply, c⟩ ⟨-, -⟩ ⟨rfl, rfl⟩ -
  refine (incompleteIf_below ?_).bind fun _ _ _ _ => .done ?_
  · simp only [Cursor.move_rest, List.length_append]
    omega
  · simp only [MovedCommand, MemcachedCommand.move, hkeyed, hcls, if_true, Chunk.move_ptr,
      Chunk.move_items, Cursor.move_ptr, List.map_nil, MemcachedCommand.mk.injEq, true_and, and_true]
    omega

theorem keyNumber_below (U : CacheUtils) (msg : String)
    {command : Int → Int → Int → Bool → Int → MemcachedCommand} (args : Input)
    (hcommand : ∀ keyPtr keySize value noreply consumed,
      command (keyPtr + shift) keySize value noreply consumed =
        (command keyPtr keySize value noreply consumed).move shift) :
    Verdict.Below (MovedCommand shift) (keyNumber U msg command args)
      (keyNumber U msg command (args.move shift more)) := by
  refine Verdict.Below.rethrow ?_ _
  apply (keyField_below args).bind
  rintro ⟨key, c⟩ ⟨-, -⟩ ⟨rfl, rfl⟩ -
  apply (nextField_below _ c).bind
  rintro ⟨token, c⟩ ⟨-, -⟩ ⟨rfl, rfl⟩ -
  apply (Verdict.Below.refl (number U token)).bind
  rintro value _ rfl -
  apply (lineEnd_below _ c).bind
  rintro ⟨noreply, c⟩ ⟨-, -⟩ ⟨rfl, rfl⟩ -
  refine .done ?_
  rw [MovedCommand, ← hcommand]
  simp only [Chunk.move_ptr, Chunk.move_items, Cursor.move_ptr]
  congr 1
  omega

theorem incr_below (U : CacheUtils) {cls : CommandClass} (hcls : cls = .INCR ∨ cls = .DECR)
    (args : Input) :
    Verdict.Below (MovedCommand shift) (incr U cls args) (incr U cls (args.move shift more)) := by
  apply keyNumber_below U _ args
  intros
  rcases hcls with rfl | rfl <;> rfl

theorem touch_below (U : CacheUtils) (args : Input) :
    Verdict.Below (MovedCommand shift) (touch U args) (touch U (args.move shift more)) := by
  apply keyNumber_below U _ args
  intros
  rfl

theorem delete_below (args : Input) :
    Verdict.Below (MovedCommand shift) (delete args) (delete (args.move shift more)) := by
  apply (keyField_below args).bind
  rintro ⟨key, c⟩ ⟨-, -⟩ ⟨rfl, rfl⟩ -
  apply (lineEnd_below _ c).bind
  rintro ⟨noreply, c⟩ ⟨-, -⟩ ⟨rfl, rfl⟩ -
  refine .done ?_
  simp [MovedCommand, MemcachedCommand.move, CommandClass.isAbstract, CommandClass.isRetrieval,
    CommandClass.isStorage]

theorem countTokens_append {inToken : Bool} {s : List UInt8} {count : Nat}
    (h : countTokens inToken s = some count) : countTokens inToken (s ++ more) = some count := by
  induction s generalizing inToken count with
  | nil => simp [countTokens] at h
  | cons b bs ih =>
    rw [List.cons_append]
    unfold countTokens at h ⊢
    by_cases hcr : b = CR
    · simpa [hcr] using h
    · rw [if_neg hcr] at h ⊢
      by_cases hsp : b = SP
      · rw [if_pos hsp] at h ⊢
        exact ih h
      · rw [if_neg hsp] at h ⊢
        cases inToken with
        | true => exact ih h
        | false =>
          simp only [Bool.false_eq_true, if_false, Option.map_eq_some_iff] at h ⊢
          obtain ⟨n, hn, rfl⟩ := h
          exact ⟨n, ih hn, rfl⟩

theorem exptimeField_below (U : CacheUtils) (cls : CommandClass) (c : Input) :
    Verdict.Below (Moved Eq shift more) (exptimeField U cls c)
      (exptimeField U cls (c.move shift more)) := by
  unfold exptimeField
  cases cls.isTouch with
  | false => exact .done ⟨rfl, rfl⟩
  | true =>
    apply (span_below isSpace c shift more).bind
    rintro ⟨gap, c⟩ ⟨-, -⟩ ⟨rfl, rfl⟩ -
    apply (span_below isTokenByte c shift more).bind
    rintro ⟨token, c⟩ ⟨-, -⟩ ⟨rfl, rfl⟩ -
    refine (failIf_below _ Iff.rfl).bind fun _ _ _ _ => ?_
    refine (Verdict.Below.refl (number U token)).bind fun exptime _ hexptime _ => ?_
    exact .done ⟨hexptime, rfl⟩

theorem keys_below (left i : Nat) (c : Input) :
    Verdict.Below (Moved (fun keys keys' => keys' = keys.map (Slice.move shift)) shift more)
      (keys left i c) (keys left i (c.move shift more)) := by
  induction left generalizing i c with
  | zero => exact .done ⟨rfl, rfl⟩
  | succ left ih =>
    apply (span_below isSpace c shift more).bind
    rintro ⟨gap, c⟩ ⟨-, -⟩ ⟨rfl, rfl⟩ -
    refine (failIf_below _ Iff.rfl).bind fun _ _ _ _ => ?_
    refine (span_below isTokenByte c shift more).bind ?_
    rintro ⟨key, c⟩ ⟨-, -⟩ ⟨rfl, rfl⟩ -
    refine (failIf_below _ Iff.rfl).bind fun _ _ _ _ => ?_
    refine (ih (i + 1) c).bind ?_
    rintro ⟨slices, c⟩ ⟨-, -⟩ ⟨rfl, rfl⟩ -
    exact .done ⟨rfl, rfl⟩

theorem retrieval_below (U : CacheUtils) {cls : CommandClass} (hcls : cls.isRetrieval = true)
    (args : Input) :
    Verdict.Below (MovedCommand shift) (retrieval U cls args)
      (retrieval U cls (args.move shift more)) := by
  refine Verdict.Below.rethrow ?_ _
  cases hcount : countTokens false args.rest with
  | none => exact .incomplete _
  | some count =>
    simp only [Cursor.move_rest, countTokens_append hcount]
    refine Verdict.Below.ite Iff.rfl (fun _ => .failed _) fun _ => ?_
    refine (exptimeField_below U cls args).bind ?_
    rintro ⟨exptime, c⟩ ⟨-, -⟩ ⟨rfl, rfl⟩ -
    apply (keys_below _ 0 c).bind
    rintro ⟨slices, c⟩ ⟨-, -⟩ ⟨rfl, rfl⟩ -
    apply (skipCRLF_below _ c).bind
    rintro next _ rfl -
    refine .done ?_
    have hstorage := (CommandClass.isAbstract_of_isRetrieval hcls).2
    simp [MovedCommand, MemcachedCommand.move, hcls, hstorage]

theorem flushArguments_below (U : CacheUtils) (token : Token) {args : Input}
    (hargs : args.rest ≠ []) (c : Input) :
    Verdict.Below (fun read read' => read' = (read.1, read.2.1, read.2.2.move shift []))
      (flushArguments U token args c)
      (flushArguments U (token.move shift) (args.move shift []) (c.move shift [])) := by
  unfold flushArguments
  by_cases hn : token.items.head? = some LOWER_N
  · simp only [Chunk.move_items, hn, ne_eq, not_true_eq_false, if_false]
    apply (checkNoreply_below c hargs).bind
    rintro ⟨noreply, c⟩ ⟨-, -⟩ ⟨rfl, rfl⟩ -
    exact .done rfl
  · simp only [Chunk.move_items, hn, ne_eq, not_false_eq_true, if_true, number_move]
    apply (Verdict.Below.refl (number U token)).bind
    rintro v _ rfl -
    refine (failIf_below _ Iff.rfl).bind fun _ _ _ _ => ?_
    cases hgap : (span isSpace c : Verdict Thrown (Token × Input)) with
    | incomplete =>
      have hall := span_eq_incomplete_iff.mp hgap
      have hmoved : (span isSpace (c.move shift []) : Verdict Thrown (Token × Input)) =
          .incomplete := span_eq_incomplete_iff.mpr (by simpa using hall)
      rw [hmoved]
      exact .done rfl
    | failed e => exact absurd hgap span_ne_failed
    | done read =>
      obtain ⟨gap, word⟩ := read
      obtain ⟨-, -, -, -, stop, rest, hword, -⟩ := span_eq_done_iff.mp hgap
      rw [span_move shift [] hgap]
      refine Verdict.Below.ite Iff.rfl (fun _ => .done rfl) fun _ => ?_
      refine (checkNoreply_below c (by simp [hword])).bind ?_
      rintro ⟨noreply, c⟩ ⟨-, -⟩ ⟨rfl, rfl⟩ -
      exact .done rfl

theorem flushAll_below (U : CacheUtils) (args : Input) :
    Verdict.Below (MovedCommand shift) (flushAll U args) (flushAll U (args.move shift [])) := by
  refine Verdict.Below.rethrow ?_ _
  apply (span_below isTokenByte args shift []).bind
  rintro ⟨token, c⟩ ⟨-, -⟩ ⟨rfl, rfl⟩ hspan
  obtain ⟨hrest, -, -, -, stop, rest, hstop, -⟩ := span_eq_done_iff.mp hspan
  have hflush : Verdict.Below (fun read read' => read' = (read.1, read.2.1, read.2.2.move shift []))
      (if token.items ≠ [] then flushArguments U token args c else .done (0, false, c))
      (if (token.move shift).items ≠ [] then
        flushArguments U (token.move shift) (args.move shift []) (c.move shift [])
        else .done (0, false, c.move shift [])) := by
    refine Verdict.Below.ite Iff.rfl (fun _ => ?_) fun _ => .done rfl
    exact flushArguments_below U token (by simp [hrest, hstop]) c
  apply hflush.bind
  rintro ⟨delay, noreply, c⟩ _ rfl -
  apply (skipCRLF_below _ c).bind
  rintro next _ rfl -
  refine .done ?_
  have hiff : c.ptr + shift = args.ptr + shift ↔ c.ptr = args.ptr := by omega
  simp [MovedCommand, MemcachedCommand.move, CommandClass.isAbstract, CommandClass.isRetrieval,
    CommandClass.isStorage, hiff]

theorem twoBytes_below {cls : CommandClass} (hcls : cls.isAbstract = false) (args : Input) :
    Verdict.Below (MovedCommand shift) (twoBytes cls args)
      (twoBytes cls (args.move shift [])) := by
  refine (incompleteIf_below (by simp)).bind fun _ _ _ _ => .done ?_
  have hstorage : cls.isStorage = false := by
    cases h : cls.isStorage with
    | false => rfl
    | true => simp [CommandClass.isAbstract_of_isStorage h] at hcls
  simp [MovedCommand, MemcachedCommand.move, hcls, hstorage]

theorem stats_below (args : Input) :
    Verdict.Below (MovedCommand shift) (stats args) (stats (args.move shift [])) := by
  unfold stats
  refine (incompleteIf_below (by simp)).bind fun _ _ _ _ => ?_
  exact Verdict.Below.ite (by simp) (fun _ => .done rfl) fun _ => .failed _

/-- The commands that carry keys decide on what they have, the others only on the same bytes at
another address. -/
theorem arguments_below (U : CacheUtils) {cls : CommandClass} (args : Input)
    (h : cls.isAbstract = true ∨ more = []) :
    Verdict.Below (MovedCommand shift) (arguments U cls args)
      (arguments U cls (args.move shift more)) := by
  have hother (hcls : cls.isAbstract = false) : more = [] := by simpa [hcls] using h
  cases cls with
  | SET | ADD | CAS | APPEND | PREPEND | REPLACE => exact storage_below U rfl args
  | GET | GETS | GAT | GATS => exact retrieval_below U rfl args
  | INCR | DECR => exact incr_below U (by simp) args
  | TOUCH => exact touch_below U args
  | DELETE => exact delete_below args
  | FLUSH_ALL =>
    obtain rfl := hother rfl
    exact flushAll_below U args
  | QUIT | VERSION | SHUTDOWN =>
    obtain rfl := hother rfl
    exact twoBytes_below rfl args
  | STATS =>
    obtain rfl := hother rfl
    exact stats_below args
  | SAVE | BGSAVE => exact .incomplete _

/-- The first token of a request, behind spaces. -/
def firstToken (s : List UInt8) : List UInt8 := (s.dropWhile isSpace).takeWhile isTokenByte

theorem firstToken_eq {c next : Input} {word : Token}
    (hspan : (span isTokenByte c : Verdict Thrown _) = .done (word, next)) (hne : word.items ≠ []) :
    firstToken c.rest = word.items := by
  obtain ⟨hrest, -, -, hbytes, stop, rest, hstop, hdelim⟩ := span_token_eq_done_iff.mp hspan
  obtain ⟨b, bs, hword, hsp, -⟩ := (IsToken.mk hne hbytes).head
  have hdrop : (word.items ++ stop :: rest).dropWhile isSpace = word.items ++ stop :: rest := by
    simp [hword, isSpace, hsp]
  rw [firstToken, hrest, hstop, hdrop, takeWhile_append_stop rest hbytes hdelim]

/-- What is decided about an input stays decided when more bytes arrive, if the first token is not
a command without keys, and does not depend on the address of the bytes. -/
theorem parse_below_of_keyed (U : CacheUtils) (c : Input) (shift : Int) (more : List UInt8)
    (h : (∀ cls : CommandClass, firstToken c.rest = cls.word → cls.isAbstract = true) ∨
      more = []) :
    Verdict.Below (MovedCommand shift) (parse U c) (parse U (c.move shift more)) := by
  have hlength : (c.move shift more).rest.length < 3 → c.rest.length < 3 := by
    simp only [Cursor.move_rest, List.length_append]
    omega
  refine (incompleteIf_below hlength).bind fun _ _ _ _ => ?_
  refine (span_below isSpace c shift more).bind ?_
  rintro ⟨gap, c'⟩ ⟨-, -⟩ ⟨rfl, rfl⟩ hgap
  refine (failIf_below _ Iff.rfl).bind fun _ _ _ hempty => ?_
  have hempty : gap.items = [] := not_not.mp (failIf_eq_done_iff.mp hempty)
  have hc : c' = c := by
    obtain ⟨hrest, -, hptr, -⟩ := span_eq_done_iff.mp hgap
    obtain ⟨ptr, rest⟩ := c
    obtain ⟨ptr', rest'⟩ := c'
    simp only [hempty, List.nil_append, List.length_nil, Int.ofNat_zero, Int.add_zero]
      at hrest hptr
    rw [hrest, hptr]
  subst hc
  have hword : Verdict.Below (fun read read' => read' = (read.1, read.2.move shift more))
      (commandWord c') (commandWord (c'.move shift more)) := by
    apply (span_below isTokenByte c' shift more).bind
    rintro ⟨word, next⟩ ⟨-, -⟩ ⟨rfl, rfl⟩ -
    simp only [Chunk.move_items]
    cases classOf word.items with
    | none => exact .failed _
    | some cls => exact .done rfl
  apply hword.bind
  rintro ⟨cls, next⟩ _ rfl hcls
  apply (span_below isSpace next shift more).bind
  rintro ⟨gap, args⟩ ⟨-, -⟩ ⟨rfl, rfl⟩ -
  refine (failIf_below _ Iff.rfl).bind fun _ _ _ _ => arguments_below U args ?_
  apply h.imp_left
  intro hkeyed
  apply hkeyed
  simp only [commandWord, Verdict.bind_eq_done_iff, Prod.exists] at hcls
  obtain ⟨word, afterWord, hspan, hclass⟩ := hcls
  cases hof : classOf word.items with
  | none => simp [hof] at hclass
  | some found =>
    simp only [hof, Verdict.pure_eq_done, Verdict.done.injEq, Prod.mk.injEq] at hclass
    obtain ⟨rfl, rfl⟩ := hclass
    have hitems := classOf_eq_some_iff.mp hof
    have hne : word.items ≠ [] := by rw [hitems]; exact (isToken_word _).nonempty
    exact (firstToken_eq hspan hne).trans hitems

/-- What is decided about an input stays decided when more bytes arrive, if the first token is a
command that carries keys, and does not depend on the address of the bytes. -/
theorem parse_below (U : CacheUtils) (c : Input) (shift : Int) (more : List UInt8)
    (h : (∃ cls : CommandClass, cls.isAbstract = true ∧ firstToken c.rest = cls.word) ∨
      more = []) :
    Verdict.Below (MovedCommand shift) (parse U c) (parse U (c.move shift more)) := by
  refine parse_below_of_keyed U c shift more (h.imp_left ?_)
  rintro ⟨first, habstract, hfirst⟩ cls hcls
  have heq := (classOf_eq_some_iff.mpr hfirst).symm.trans (classOf_eq_some_iff.mpr hcls)
  rwa [← Option.some.inj heq]

end Moves

end Wire

end Memcarrot
