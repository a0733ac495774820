import Memcarrot.Refinement.Parser
import Memcarrot.Util.Decimal
import Memcarrot.Wire.Acceptance
import Memcarrot.Wire.Slices

open Incremental RawMemory

namespace Memcarrot

open Wire

namespace Parsing

variable {U : CacheUtils} {m : Memory} {buf : Int} {size : Nat}

theorem parse_run_eq_done_iff {cmd : MemcachedCommand} :
    (CommandParser.parse U buf size).run m = .done cmd ↔
      Regular U ⟨buf, m.slice buf size⟩ cmd ∨ Irregular (m.slice buf size) cmd := by
  rw [Refinement.parse_run]
  exact parse_eq_done_iff

theorem not_isAbstract_of_irregular {bytes : List UInt8} {cmd : MemcachedCommand}
    (h : Irregular bytes cmd) : cmd.cls.isAbstract = false ∨ cmd.cls.isRetrieval = true := by
  cases h with
  | get cls rest hcls => rcases hcls with rfl | rfl <;> exact .inr rfl
  | flushAll rest => exact .inl rfl
  | flushWord word rest _ _ _ _ => exact .inl rfl
  | twoBytes cls space first second hcls _ _ => rcases hcls with rfl | rfl | rfl <;> exact .inl rfl
  | stats space => exact .inl rfl

/-- The commands with a single key come from requests only. -/
theorem regular_of_isAbstract {cmd : MemcachedCommand}
    (h : (CommandParser.parse U buf size).run m = .done cmd) (habstract : cmd.cls.isAbstract = true)
    (hretrieval : cmd.cls.isRetrieval = false) : Regular U ⟨buf, m.slice buf size⟩ cmd := by
  rcases parse_run_eq_done_iff.mp h with hregular | hirregular
  · exact hregular
  · rcases not_isAbstract_of_irregular hirregular with hother | hother
    · simp [hother] at habstract
    · simp [hother] at hretrieval

/-- A line with a key and numbers stands in front of every accepted storage command. -/
theorem storage_of_regular {cmd : MemcachedCommand}
    (h : Regular U ⟨buf, m.slice buf size⟩ cmd) (hcls : cmd.cls.isStorage = true) :
    ∃ (r : StorageRequest U) (rest : List UInt8), m.slice buf size = r.bytes ++ rest ∧
      cmd = r.command buf := by
  obtain ⟨r, rest, hrest, rfl⟩ := h
  rw [r.cls_command] at hcls
  cases r with
  | storage r => exact ⟨r, rest, hrest, rfl⟩
  | keyNumber r =>
    rcases r.isKeyNumber with h | h | h <;> simp [Request.cls, h, CommandClass.isStorage] at hcls
  | delete r => cases hcls
  | retrieval r =>
    have hr := r.isRetrieval
    cases h : r.cls <;> simp_all [Request.cls, CommandClass.isStorage, CommandClass.isRetrieval]
  | flushAll r => cases hcls

theorem keyNumber_of_regular {cmd : MemcachedCommand}
    (h : Regular U ⟨buf, m.slice buf size⟩ cmd)
    (hcls : cmd.cls = .INCR ∨ cmd.cls = .DECR ∨ cmd.cls = .TOUCH) :
    ∃ (r : KeyNumberRequest U) (rest : List UInt8), m.slice buf size = r.bytes ++ rest ∧
      cmd = r.command buf := by
  obtain ⟨r, rest, hrest, rfl⟩ := h
  rw [r.cls_command] at hcls
  cases r with
  | storage r =>
    have hr := r.isStorage
    rcases hcls with h | h | h <;> simp_all [Request.cls, CommandClass.isStorage]
  | keyNumber r => exact ⟨r, rest, by simpa using hrest, rfl⟩
  | delete r => simp [Request.cls] at hcls
  | retrieval r =>
    have hr := r.isRetrieval
    rcases hcls with h | h | h <;> simp_all [Request.cls, CommandClass.isRetrieval]
  | flushAll r => simp [Request.cls] at hcls

theorem delete_of_regular {cmd : MemcachedCommand}
    (h : Regular U ⟨buf, m.slice buf size⟩ cmd) (hcls : cmd.cls = .DELETE) :
    ∃ (r : DeleteRequest) (rest : List UInt8), m.slice buf size = r.bytes ++ rest ∧
      cmd = r.command buf := by
  obtain ⟨r, rest, hrest, rfl⟩ := h
  rw [r.cls_command] at hcls
  cases r with
  | storage r =>
    have hr := r.isStorage
    simp_all [Request.cls, CommandClass.isStorage]
  | keyNumber r => rcases r.isKeyNumber with h | h | h <;> simp [Request.cls, h] at hcls
  | delete r => exact ⟨r, rest, by simpa using hrest, rfl⟩
  | retrieval r =>
    have hr := r.isRetrieval
    simp_all [Request.cls, CommandClass.isRetrieval]
  | flushAll r => simp [Request.cls] at hcls

/-- Every accepted storage, incr, decr, touch or delete command begins with a line of the grammar
that has the fields of the command. -/
theorem parse_grammar {cmd : MemcachedCommand}
    (h : (CommandParser.parse U buf size).run m = .done cmd) :
    (cmd.cls.isStorage = true → ∃ (r : StorageRequest U) (rest : List UInt8),
      m.slice buf size = r.bytes ++ rest ∧ cmd = r.command buf ∧ cmd.keyBytes m = r.key.1 ∧
        cmd.valueBytes m = r.value) ∧
    (cmd.cls = .INCR ∨ cmd.cls = .DECR ∨ cmd.cls = .TOUCH →
      ∃ (r : KeyNumberRequest U) (rest : List UInt8),
        m.slice buf size = r.bytes ++ rest ∧ cmd = r.command buf ∧ cmd.keyBytes m = r.key.1) ∧
    (cmd.cls = .DELETE → ∃ (r : DeleteRequest) (rest : List UInt8),
      m.slice buf size = r.bytes ++ rest ∧ cmd = r.command buf ∧ cmd.keyBytes m = r.key.1) := by
  refine ⟨fun hcls => ?_, fun hcls => ?_, fun hcls => ?_⟩
  · obtain ⟨habstract, hretrieval⟩ := CommandClass.isAbstract_of_isStorage hcls
    have hregular := regular_of_isAbstract h habstract hretrieval
    obtain ⟨r, rest, hrest, rfl⟩ := storage_of_regular hregular hcls
    exact ⟨r, rest, hrest, rfl, r.keyBytes_command hrest, r.valueBytes_command hrest⟩
  · have hregular := regular_of_isAbstract h
      (by rcases hcls with hc | hc | hc <;> rw [hc] <;> rfl)
      (by rcases hcls with hc | hc | hc <;> rw [hc] <;> rfl)
    obtain ⟨r, rest, hrest, rfl⟩ := keyNumber_of_regular hregular hcls
    exact ⟨r, rest, hrest, rfl, r.keyBytes_command hrest⟩
  · have hregular := regular_of_isAbstract h (by rw [hcls]; rfl) (by rw [hcls]; rfl)
    obtain ⟨r, rest, hrest, rfl⟩ := delete_of_regular hregular hcls
    exact ⟨r, rest, hrest, rfl, r.keyBytes_command hrest⟩

theorem parse_grammar_set :
    let m := Memory.ofBytes 100 (ascii "set k 5 0 1 noreply\r\nx\r\n")
    let cmd : MemcachedCommand :=
      { cls := .SET, keyPtr := 104, keySize := 1, valPtr := 121, valSize := 1, flags := 5
        noreply := true, consumed := 20 }
    ∃ (r : StorageRequest decimalUtils) (rest : List UInt8),
      m.slice 100 24 = r.bytes ++ rest ∧ cmd = r.command 100 ∧ cmd.keyBytes m = r.key.1 ∧
        cmd.valueBytes m = r.value := by
  intro m cmd
  have hrun : (CommandParser.parse decimalUtils 100 (24 : Nat)).run m = .done cmd := by
    decide +kernel
  exact (parse_grammar hrun).1 rfl

end Parsing

end Memcarrot
