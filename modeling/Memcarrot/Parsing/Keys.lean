import Memcarrot.Refinement.Retrieval
import Memcarrot.Segments.Maximal
import Memcarrot.Util.Decimal
import Memcarrot.Wire.Consumption

open Incremental RawMemory Segments

namespace Memcarrot

namespace Wire

variable {U : CacheUtils}

/-- Bytes other than spaces. -/
def isNonSpace (b : UInt8) : Bool := !isSpace b

/-- The entry of the key table for a run that stands at an offset behind `base`. -/
def sliceAt (base : Int) (run : Nat × Nat) : Slice := ⟨base + run.1, run.2⟩

theorem isNonSpace_of_isToken {t : List UInt8} (ht : IsToken t) :
    ∀ b ∈ t, isNonSpace b = true := by
  intro b hb
  have hsp := (isTokenByte_eq_true_iff.mp (ht.bytes b hb)).1
  simpa [isNonSpace] using hsp

theorem not_isNonSpace_replicate (n : Nat) : ∀ b ∈ List.replicate n SP, isNonSpace b = false := by
  intro b hb
  rw [List.eq_of_mem_replicate hb]
  rfl

/-- A token behind spaces is the first run of a line. -/
theorem maximalRuns_token {start : Nat} (n : Nat) {t rest : List UInt8} {runs : List (Nat × Nat)}
    (ht : IsToken t) (hrest : ∀ b ∈ rest.head?, b = SP)
    (hruns : MaximalRuns isNonSpace (start + n + t.length) rest runs) :
    MaximalRuns isNonSpace start (List.replicate n SP ++ (t ++ rest))
      ((start + n, t.length) :: runs) := by
  have hlength : (List.replicate n SP).length = n := List.length_replicate
  have hstop : ∀ b ∈ rest.head?, isNonSpace b = false := by
    intro b hb
    rw [hrest b hb]
    rfl
  rw [← hlength] at hruns
  have hrun := MaximalRuns.run (not_isNonSpace_replicate n) ht.nonempty (isNonSpace_of_isToken ht)
    hstop hruns
  rwa [hlength] at hrun

theorem maximalRuns_spacedKeys (base : Int) (start : Nat) (ks : List Key) :
    ∃ runs, MaximalRuns isNonSpace start (spacedKeys ks) runs ∧
      runs.map (sliceAt base) = keySlices (base + start + 1) ks := by
  induction ks generalizing start with
  | nil => exact ⟨[], .gap (by simp), rfl⟩
  | cons key ks ih =>
    obtain ⟨runs, hruns, hslices⟩ := ih (start + 1 + key.1.length)
    refine ⟨_, maximalRuns_token 1 key.2 ?_ hruns, ?_⟩
    · cases ks <;> simp
    · simp only [List.map_cons, hslices, sliceAt, keySlices, List.cons.injEq, Slice.mk.injEq,
        and_true]
      refine ⟨by omega, ?_⟩
      congr 1
      omega

theorem maximalRuns_keysBytes (base : Int) (start gap : Nat) (ks : List Key) :
    ∃ runs, MaximalRuns isNonSpace start (keysBytes gap ks) runs ∧
      runs.map (sliceAt base) = keySlices (base + start + gap) ks := by
  cases ks with
  | nil => exact ⟨[], .gap (by simp [keysBytes]), rfl⟩
  | cons key ks =>
    obtain ⟨runs, hruns, hslices⟩ := maximalRuns_spacedKeys base (start + gap + key.1.length) ks
    refine ⟨_, maximalRuns_token gap key.2 ?_ hruns, ?_⟩
    · cases ks <;> simp
    · simp only [List.map_cons, hslices, sliceAt, keySlices, List.cons.injEq, Slice.mk.injEq,
        and_true]
      refine ⟨by omega, ?_⟩
      congr 1
      omega

end Wire

open Wire

namespace Parsing

variable {U : CacheUtils} {cls : CommandClass} {m : Memory} {inBuffer : Int}
  {cmd : MemcachedCommand}

/-- The loop that counts the keys reads a byte of an empty buffer, but no command comes of it. -/
theorem retrieval_parse_empty (U : CacheUtils) (cls : CommandClass) (m : Memory) (inBuffer : Int) :
    (RetrievalCommand.parse U cls inBuffer (0 : Nat)).run m ≠ .done cmd := by
  have hcount : (RetrievalCommand.calculateNumberOfKeys inBuffer (0 : Nat)).run m = .done 0 := by
    simp [RetrievalCommand.calculateNumberOfKeys, RetrievalCommand.countLoop, Access.byte, Access.run]
  intro h
  unfold RetrievalCommand.parse at h
  rw [Access.run_rethrow, Verdict.rethrow_eq_done_iff, Access.run_bind, hcount] at h
  cases htouch : cls.isTouch with
  | false =>
    simp [htouch, returnFalseIf, RetrievalCommand.exptimeField, RetrievalCommand.keysLoop,
      skipCRLF, Access.incomplete, Access.run] at h
  | true => simp [htouch, returnFalseIf, Access.throw, Access.run] at h

theorem retrieval_parse_run {size : Nat} (hsize : 0 < size) :
    (RetrievalCommand.parse U cls inBuffer size).run m =
      retrieval U cls ⟨inBuffer, m.slice inBuffer size⟩ := by
  have hat : At m inBuffer (inBuffer + size) inBuffer 0 ⟨inBuffer, m.slice inBuffer size⟩ :=
    ⟨by simp, by simp, Views.of_slice m inBuffer size⟩
  have hne : m.slice inBuffer size ≠ [] := by
    intro hnil
    have hlength := congrArg List.length hnil
    rw [Memory.length_slice, List.length_nil] at hlength
    omega
  exact (Refinement.retrieval_simulates U cls hat rfl hne).verdict.eq

/-- The runs of a line without an expiration time are the keys. -/
theorem maximalRuns_get {l : RetrievalLine U} (hexptime : l.exptime = none) (hlead : l.lead = 0)
    (base : Int) :
    ∃ runs, MaximalRuns isNonSpace 0 l.bytes runs ∧ runs.map (sliceAt base) = l.slices base := by
  obtain ⟨runs, hruns, hslices⟩ := maximalRuns_keysBytes base 0 l.gap l.keys
  have hbytes : l.bytes = keysBytes l.gap l.keys := by
    simp [RetrievalLine.bytes, RetrievalLine.exptimeBytes, hexptime, hlead]
  refine ⟨runs, hbytes ▸ hruns, ?_⟩
  simp [hslices, RetrievalLine.slices, RetrievalLine.exptimeBytes, hexptime, hlead]

/-- With one, it is the first run, and the keys are the others. -/
theorem maximalRuns_gat {l : RetrievalLine U} {exptime : Number U}
    (hexptime : l.exptime = some exptime) (base : Int) :
    ∃ runs, MaximalRuns isNonSpace 0 l.bytes ((l.lead, exptime.token.length) :: runs) ∧
      runs.map (sliceAt base) = l.slices base := by
  have hgap := l.gap_pos (by rw [hexptime]; rfl)
  obtain ⟨runs, hruns, hslices⟩ :=
    maximalRuns_keysBytes base (0 + l.lead + exptime.token.length) l.gap l.keys
  have hhead : ∀ b ∈ (keysBytes l.gap l.keys).head?, b = SP := by
    intro b hb
    cases hkeys : l.keys with
    | nil => simp [hkeys, keysBytes] at hb
    | cons key keys =>
      obtain ⟨n, hn⟩ : ∃ n, l.gap = n + 1 := ⟨l.gap - 1, by omega⟩
      simp only [hkeys, keysBytes, hn, List.replicate_succ, List.cons_append, List.head?_cons,
        Option.mem_def, Option.some.injEq] at hb
      exact hb.symm
  have hline := maximalRuns_token l.lead exptime.isToken hhead hruns
  rw [Nat.zero_add] at hline
  refine ⟨runs, ?_, ?_⟩
  · simpa [RetrievalLine.bytes, RetrievalLine.exptimeBytes, hexptime] using hline
  · simp [hslices, RetrievalLine.slices, RetrievalLine.exptimeBytes, hexptime, Int.add_assoc]

theorem cr_notMem_line (l : RetrievalLine U) : CR ∉ l.bytes := by
  simp only [RetrievalLine.bytes, List.mem_append, not_or]
  refine ⟨cr_notMem_replicate l.lead, ?_, cr_notMem_keysBytes l.gap l.keys⟩
  unfold RetrievalLine.exptimeBytes
  cases l.exptime with
  | none => simp
  | some exptime => exact exptime.isToken.cr_notMem

/-- The table of the keys in runs of a line has their sizes. -/
theorem size_pos_of_runs {line : List UInt8} {runs : List (Nat × Nat)}
    (h : MaximalRuns isNonSpace 0 line runs) {chosen : List (Nat × Nat)}
    (hchosen : ∀ run ∈ chosen, run ∈ runs) (base : Int) :
    ∀ key ∈ chosen.map (sliceAt base), 0 < key.size := by
  intro key hkey
  obtain ⟨run, hrun, rfl⟩ := List.mem_map.mp hkey
  have hpos := h.length_pos run (hchosen run hrun)
  show (0 : Int) < run.2
  omega

/-- What a retrieval command has for keys are the maximal runs of bytes other than spaces in its
line, where the first run of gat and gats is the expiration time. -/
theorem keys_are_runs {size : Nat}
    (h : (RetrievalCommand.parse U cls inBuffer size).run m = .done cmd) :
    ∃ line rest runs, m.slice inBuffer size = line ++ (CRLF ++ rest) ∧ CR ∉ line ∧
      (∀ runs', MaximalRuns isNonSpace 0 line runs' ↔ runs' = runs) ∧
      (∀ key ∈ cmd.keys, 0 < key.size) ∧
      (cls.isTouch = false → cmd.keys = runs.map (sliceAt inBuffer)) ∧
      (cls.isTouch = true → ∃ token others, runs = token :: others ∧
        U.strToLongDirect (m.slice (inBuffer + token.1) token.2) = some cmd.exptime ∧
        cmd.keys = others.map (sliceAt inBuffer)) := by
  have hsize : 0 < size := by
    by_contra hzero
    have hempty : size = 0 := by omega
    subst hempty
    exact retrieval_parse_empty U cls m inBuffer h
  rw [retrieval_parse_run hsize] at h
  obtain ⟨l, rest, hrest, htouch, hnone, hkeys, hexptime⟩ := retrieval_line h
  have hunique {runs : List (Nat × Nat)} (hruns : MaximalRuns isNonSpace 0 l.bytes runs)
      (runs' : List (Nat × Nat)) : MaximalRuns isNonSpace 0 l.bytes runs' ↔ runs' = runs :=
    ⟨fun h' => h'.unique hruns, fun heq => heq ▸ hruns⟩
  cases hcase : l.exptime with
  | none =>
    obtain ⟨runs, hruns, hslices⟩ := maximalRuns_get hcase (hnone hcase).1 inBuffer
    rw [hcase] at htouch
    rw [hkeys, ← hslices]
    refine ⟨l.bytes, rest, runs, hrest, cr_notMem_line l, hunique hruns,
      size_pos_of_runs hruns (fun _ hrun => hrun) inBuffer, fun _ => rfl, fun htrue => ?_⟩
    rw [← htouch] at htrue
    cases htrue
  | some exptime =>
    obtain ⟨runs, hruns, hslices⟩ := maximalRuns_gat hcase inBuffer
    rw [hcase] at htouch hexptime
    rw [hkeys, ← hslices]
    refine ⟨l.bytes, rest, _, hrest, cr_notMem_line l, hunique hruns,
      size_pos_of_runs hruns (fun _ hrun => List.mem_cons_of_mem _ hrun) inBuffer,
      fun hfalse => ?_, fun _ => ⟨_, runs, rfl, ?_, rfl⟩⟩
    · rw [← htouch] at hfalse
      cases hfalse
    · have hsplit : m.slice inBuffer size = List.replicate l.lead SP ++
          (exptime.token ++ (keysBytes l.gap l.keys ++ (CRLF ++ rest))) := by
        simpa [RetrievalLine.bytes, RetrievalLine.exptimeBytes, hcase] using hrest
      have htoken := Memory.slice_middle hsplit
      rw [List.length_replicate] at htoken
      simp only [htoken, hexptime, exptime.value_eq, Option.elim_some]

theorem keys_are_runs_gat :
    let m := Memory.ofBytes 100 (ascii "60  a bb\r\n")
    ∃ line rest runs, m.slice 100 10 = line ++ (CRLF ++ rest) ∧ CR ∉ line ∧
      (∀ runs', MaximalRuns isNonSpace 0 line runs' ↔ runs' = runs) ∧
      ∃ token, runs.map (sliceAt 100) = [token, ⟨104, 1⟩, ⟨106, 2⟩] := by
  intro m
  let cmd : MemcachedCommand :=
    { cls := .GAT, keys := [⟨104, 1⟩, ⟨106, 2⟩], exptime := 60, consumed := 10 }
  have hparse : (RetrievalCommand.parse decimalUtils .GAT 100 (10 : Nat)).run m = .done cmd := by
    decide +kernel
  obtain ⟨line, rest, runs, hline, hcr, hruns, -, -, hgat⟩ := keys_are_runs hparse
  obtain ⟨token, others, rfl, -, hkeys⟩ := hgat rfl
  refine ⟨line, rest, _, hline, hcr, hruns, sliceAt 100 token, ?_⟩
  rw [List.map_cons, ← hkeys]

end Parsing

end Memcarrot
