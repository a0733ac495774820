import Memcarrot.Wire.Acceptance
import Memcarrot.Wire.BrokenLines

open Incremental

namespace Memcarrot.Wire

/-- The offset just after the first CR LF. -/
def afterLine : List UInt8 → Option Nat
  | first :: second :: rest =>
    if first = CR ∧ second = LF then some 2 else (afterLine (second :: rest)).map (· + 1)
  | _ => none

/-- One line with its end. -/
def IsLine (s : List UInt8) : Prop := ∃ body, CR ∉ body ∧ s = body ++ CRLF

theorem afterLine_cons {b : UInt8} (hb : b ≠ CR) (s : List UInt8) :
    afterLine (b :: s) = (afterLine s).map (· + 1) := by
  cases s with
  | nil => rfl
  | cons c s => rw [afterLine, if_neg fun h => hb h.1]

theorem afterLine_append {front : List UInt8} (hfront : CR ∉ front) (s : List UInt8) :
    afterLine (front ++ s) = (afterLine s).map (· + front.length) := by
  induction front with
  | nil => simp
  | cons b front ih =>
    simp only [List.mem_cons, not_or] at hfront
    rw [List.cons_append, afterLine_cons (Ne.symm hfront.1), ih hfront.2, Option.map_map]
    congr 1

theorem isLine_crlf : IsLine CRLF := ⟨[], by simp, rfl⟩

theorem IsLine.append {front s : List UInt8} (h : IsLine s) (hfront : CR ∉ front) :
    IsLine (front ++ s) := by
  obtain ⟨body, hbody, rfl⟩ := h
  exact ⟨front ++ body, by simp [hfront, hbody], by simp⟩

theorem IsLine.afterLine_eq {s : List UInt8} (h : IsLine s) (rest : List UInt8) :
    afterLine (s ++ rest) = some s.length := by
  obtain ⟨body, hbody, rfl⟩ := h
  rw [List.append_assoc, afterLine_append hbody]
  simp [CRLF, afterLine]
  omega

section Lines

variable {U : CacheUtils}

theorem isLine_lineEndBytes (gap : Option Nat) : IsLine (lineEndBytes gap) := by
  cases gap with
  | none => exact isLine_crlf
  | some extra =>
    have hnoreply : CR ∉ NOREPLY := by decide
    exact (isLine_crlf.append hnoreply).append (cr_notMem_replicate (extra + 1))

theorem cr_notMem_spacedKeys (keys : List Key) : CR ∉ spacedKeys keys := by
  intro hmem
  simp only [spacedKeys, List.mem_flatMap, List.mem_cons] at hmem
  obtain ⟨key, -, hcr | hcr⟩ := hmem
  · exact absurd hcr (by decide)
  · exact key.2.cr_notMem hcr

theorem cr_notMem_keysBytes (gap : Nat) (keys : List Key) : CR ∉ keysBytes gap keys := by
  cases keys with
  | nil => simp [keysBytes]
  | cons key keys =>
    simp only [keysBytes, List.mem_append, not_or]
    exact ⟨cr_notMem_replicate gap, key.2.cr_notMem, cr_notMem_spacedKeys keys⟩

theorem RetrievalRequest.isLine_header (r : RetrievalRequest U) : IsLine r.header := by
  apply (isLine_crlf.append (cr_notMem_keysBytes r.gap r.keys)).append
  unfold RetrievalRequest.exptimeBytes
  cases r.exptime with
  | none => simp
  | some exptime => exact exptime.isToken.cr_notMem

theorem FlushRequest.isLine_header (r : FlushRequest U) : IsLine r.header := by
  cases r with
  | now => exact isLine_crlf
  | nowNoreply =>
    have hnoreply : CR ∉ NOREPLY := by decide
    exact isLine_crlf.append hnoreply
  | delayed delay gap _ _ => exact (isLine_lineEndBytes gap).append delay.isToken.cr_notMem

/-- The header of a request is the rest of its first line. -/
theorem Request.isLine_header (r : Request U) : IsLine r.header := by
  cases r with
  | storage r =>
    exact ((isLine_lineEndBytes r.gap).append (cr_notMem_fieldsBytes r.numbers)).append
      r.key.2.cr_notMem
  | keyNumber r =>
    exact ((isLine_lineEndBytes r.gap).append (cr_notMem_fieldsBytes [r.number])).append
      r.key.2.cr_notMem
  | delete r => exact (isLine_lineEndBytes r.gap).append r.key.2.cr_notMem
  | retrieval r => exact r.isLine_header
  | flushAll r => exact r.isLine_header

theorem Request.block_eq_nil {r : Request U} (h : r.cls.isStorage = false) : r.block = [] := by
  cases r with
  | storage r => exact absurd (r.isStorage.symm.trans h) (by decide)
  | _ => rfl

/-- A request without a data block is one line. -/
theorem Request.isLine_bytes {r : Request U} (h : r.cls.isStorage = false) : IsLine r.bytes := by
  rw [Request.bytes, Request.block_eq_nil h, List.append_nil]
  exact (r.isLine_header.append (cr_notMem_replicate r.space.toNat)).append
    (isToken_word r.cls).cr_notMem

end Lines

section Consumed

variable {U : CacheUtils}

theorem Request.length_bytes_pos (r : Request U) : 0 < r.bytes.length := by
  have hword := three_le_length_word r.cls
  rw [Request.bytes, List.length_append]
  omega

theorem commandLength_eq {cls : CommandClass} (h : cls.isAbstract = true ∨ cls = .FLUSH_ALL) :
    cls.commandLength = cls.word.length + 1 := by
  cases cls <;> first
    | rfl
    | simp [CommandClass.isAbstract, CommandClass.isStorage, CommandClass.isRetrieval] at h

theorem inputConsumed_of_isAbstract {cmd : MemcachedCommand} (h : cmd.cls.isAbstract = true)
    (hconsumed : cmd.consumed ≠ 0) :
    cmd.inputConsumed = cmd.consumed + (cmd.cls.word.length + 1) := by
  rw [← commandLength_eq (.inl h)]
  unfold MemcachedCommand.inputConsumed
  cases hcls : cmd.cls <;> simp [hcls, hconsumed, CommandClass.isAbstract,
    CommandClass.isStorage, CommandClass.isRetrieval] at h ⊢

theorem IsLine.length_pos {s : List UInt8} (h : IsLine s) : 0 < s.length := by
  obtain ⟨body, -, rfl⟩ := h
  simp [CRLF]

theorem Request.consumed_command (r : Request U) (buf : Int) :
    (r.command buf).consumed + 1 = r.space.toNat + r.header.length + r.block.length := by
  cases r with
  | flushAll r =>
    cases r with
    | now => rfl
    | nowNoreply => rfl
    | delayed delay gap _ _ =>
      simp only [Request.command, FlushRequest.command, Request.space, FlushRequest.space,
        Request.header, FlushRequest.header, Request.block, List.length_append, List.length_nil,
        Bool.toNat_true]
      omega
  | storage r =>
    simp only [Request.command, StorageRequest.command, Request.space, Request.header,
      Request.block, Bool.toNat_true]
    omega
  | keyNumber r | delete r | retrieval r =>
    simp only [Request.command, KeyNumberRequest.command, DeleteRequest.command,
      RetrievalRequest.command, Request.space, Request.header, Request.block, List.length_nil,
      Bool.toNat_true]
    omega

/-- The command of a request consumes exactly the bytes of the request. -/
theorem Request.inputConsumed_command (r : Request U) (buf : Int) :
    (r.command buf).inputConsumed = r.bytes.length := by
  have hheader := r.isLine_header.length_pos
  have hconsumed := r.consumed_command buf
  have hlength : r.bytes.length =
      r.cls.word.length + (r.space.toNat + (r.header.length + r.block.length)) := by
    simp only [Request.bytes, List.length_append, List.length_replicate]
  rcases r.isAbstract_or_flushAll with ⟨habstract, hspace⟩ | ⟨f, rfl⟩
  · rw [hspace, Bool.toNat_true] at hconsumed hlength
    rw [inputConsumed_of_isAbstract (by rwa [r.cls_command]) (by omega), r.cls_command]
    omega
  · have hcls := (Request.flushAll f).cls_command buf
    have hword := commandLength_eq (Or.inr (rfl : CommandClass.FLUSH_ALL = .FLUSH_ALL))
    simp only [Request.cls] at hcls hlength
    unfold MemcachedCommand.inputConsumed
    simp only [hcls]
    omega

end Consumed

end Memcarrot.Wire
