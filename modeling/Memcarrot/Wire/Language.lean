import Memcarrot.Wire.FlushRequests
import Memcarrot.Wire.RetrievalRequests

open Incremental

namespace Memcarrot.Wire

/-- The requests whose bytes tell alone where they end. -/
inductive Request (U : CacheUtils) where
  | storage (r : StorageRequest U)
  | keyNumber (r : KeyNumberRequest U)
  | delete (r : DeleteRequest)
  | retrieval (r : RetrievalRequest U)
  | flushAll (r : FlushRequest U)

namespace Request

variable {U : CacheUtils}

def cls : Request U → CommandClass
  | storage r => r.cls
  | keyNumber r => r.cls
  | delete _ => .DELETE
  | retrieval r => r.cls
  | flushAll _ => .FLUSH_ALL

def header : Request U → List UInt8
  | storage r => r.header
  | keyNumber r => r.header
  | delete r => r.header
  | retrieval r => r.header
  | flushAll r => r.header

def space : Request U → Bool
  | flushAll r => r.space
  | _ => true

def block : Request U → List UInt8
  | storage r => r.block
  | _ => []

def bytes (r : Request U) : List UInt8 :=
  r.cls.word ++ (List.replicate r.space.toNat SP ++ (r.header ++ r.block))

@[simp] theorem bytes_storage (r : StorageRequest U) : (storage r).bytes = r.bytes := rfl

@[simp] theorem bytes_keyNumber (r : KeyNumberRequest U) : (keyNumber r).bytes = r.bytes := by
  simp [bytes, cls, space, header, block, KeyNumberRequest.bytes]

@[simp] theorem bytes_delete (r : DeleteRequest) : (delete r : Request U).bytes = r.bytes := by
  simp [bytes, cls, space, header, block, DeleteRequest.bytes]

@[simp] theorem bytes_retrieval (r : RetrievalRequest U) : (retrieval r).bytes = r.bytes := by
  simp [bytes, cls, space, header, block, RetrievalRequest.bytes]

@[simp] theorem bytes_flushAll (r : FlushRequest U) : (flushAll r).bytes = r.bytes := by
  simp [bytes, cls, space, header, block, FlushRequest.bytes]

/-- The command object for the request at the address `buf`. -/
def command (buf : Int) : Request U → MemcachedCommand
  | storage r => r.command buf
  | keyNumber r => r.command buf
  | delete r => r.command buf
  | retrieval r => r.command buf
  | flushAll r => r.command

theorem cls_command (r : Request U) (buf : Int) : (r.command buf).cls = r.cls := by
  cases r with
  | flushAll r => cases r <;> rfl
  | _ => rfl

theorem isAbstract_or_flushAll (r : Request U) :
    (r.cls.isAbstract = true ∧ r.space = true) ∨ ∃ f, r = .flushAll f := by
  cases r with
  | storage r => exact .inl ⟨(CommandClass.isAbstract_of_isStorage r.isStorage).1, rfl⟩
  | keyNumber r =>
    refine .inl ⟨?_, rfl⟩
    rcases r.isKeyNumber with h | h | h <;> simp [cls, h] <;> rfl
  | delete r => exact .inl ⟨rfl, rfl⟩
  | retrieval r => exact .inl ⟨(CommandClass.isAbstract_of_isRetrieval r.isRetrieval).1, rfl⟩
  | flushAll f => exact .inr ⟨f, rfl⟩

/-- The commands that look at the number of bytes they have received are no such requests. -/
theorem cls_ne (r : Request U) :
    r.cls ≠ .QUIT ∧ r.cls ≠ .VERSION ∧ r.cls ≠ .SHUTDOWN ∧ r.cls ≠ .STATS := by
  rcases r.isAbstract_or_flushAll with ⟨habstract, -⟩ | ⟨f, rfl⟩
  · have hne (cls : CommandClass) (h : cls.isAbstract = false) : r.cls ≠ cls := by
      rintro rfl
      rw [h] at habstract
      cases habstract
    exact ⟨hne _ rfl, hne _ rfl, hne _ rfl, hne _ rfl⟩
  · simp [cls]

end Request

theorem IsToken.append_head_ne_space {t : List UInt8} (ht : IsToken t) (s : List UInt8) :
    ∃ b bs, t ++ s = b :: bs ∧ b ≠ SP := by
  obtain ⟨b, bs, rfl, hsp, -⟩ := ht.head
  exact ⟨b, bs ++ s, rfl, hsp⟩

theorem crlf_append_head_ne_space (s : List UInt8) : ∃ b bs, CRLF ++ s = b :: bs ∧ b ≠ SP :=
  ⟨CR, LF :: s, rfl, by decide⟩

theorem RetrievalRequest.header_head {U : CacheUtils} (r : RetrievalRequest U) (s : List UInt8) :
    ∃ b bs, r.header ++ s = b :: bs ∧ b ≠ SP := by
  have hgap := r.gap_pos
  unfold RetrievalRequest.header RetrievalRequest.exptimeBytes
  cases hexptime : r.exptime with
  | some n =>
    rw [Option.elim_some, List.append_assoc]
    exact n.isToken.append_head_ne_space _
  | none =>
    have hzero : r.gap = 0 := by
      simp only [hexptime, Option.isSome_none, Bool.false_eq_true, iff_false] at hgap
      omega
    simp only [Option.elim_none, List.nil_append, List.append_assoc, hzero]
    cases r.keys with
    | nil => exact crlf_append_head_ne_space s
    | cons key keys =>
      simp only [keysBytes, List.replicate_zero, List.nil_append, List.append_assoc]
      exact key.2.append_head_ne_space _

theorem FlushRequest.header_head {U : CacheUtils} (r : FlushRequest U) (s : List UInt8) :
    ∃ b bs, r.header ++ s = b :: bs ∧ b ≠ SP ∧ (r.space = false → b = CR) := by
  cases r with
  | now => exact ⟨CR, LF :: s, rfl, by decide, fun _ => rfl⟩
  | nowNoreply => exact ⟨LOWER_N, ascii "oreply" ++ (CRLF ++ s), rfl, by decide, by simp [space]⟩
  | delayed delay gap _ _ =>
    obtain ⟨b, bs, hb, hsp⟩ := delay.isToken.append_head_ne_space (lineEndBytes gap ++ s)
    exact ⟨b, bs, by simpa [header] using hb, hsp, by simp [space]⟩

namespace Request

variable {U : CacheUtils}

theorem header_head (r : Request U) (s : List UInt8) :
    ∃ b bs, r.header ++ s = b :: bs ∧ b ≠ SP ∧ (r.space = false → b = CR) := by
  cases r with
  | flushAll r => exact r.header_head s
  | retrieval r =>
    obtain ⟨b, bs, hb, hsp⟩ := r.header_head s
    exact ⟨b, bs, hb, hsp, by simp [space]⟩
  | storage r =>
    obtain ⟨b, bs, hb, hsp⟩ := r.key.2.append_head_ne_space
      (fieldsBytes r.numbers ++ lineEndBytes r.gap ++ s)
    exact ⟨b, bs, by simpa [header, StorageRequest.header] using hb, hsp, by simp [space]⟩
  | keyNumber r =>
    obtain ⟨b, bs, hb, hsp⟩ := r.key.2.append_head_ne_space
      (fieldsBytes [r.number] ++ lineEndBytes r.gap ++ s)
    exact ⟨b, bs, by simpa [header, KeyNumberRequest.header] using hb, hsp, by simp [space]⟩
  | delete r =>
    obtain ⟨b, bs, hb, hsp⟩ := r.key.2.append_head_ne_space (lineEndBytes r.gap ++ s)
    exact ⟨b, bs, by simpa [header, DeleteRequest.header] using hb, hsp, by simp [space]⟩

theorem opens (r : Request U) (ptr : Int) (rest : List UInt8) :
    Opens ⟨ptr, r.bytes ++ rest⟩ r.cls r.space
      ⟨ptr + r.cls.word.length + r.space.toNat, r.header ++ (r.block ++ rest)⟩ :=
  ⟨by simp [bytes], rfl, r.header_head _⟩

theorem arguments_eq (r : Request U) (ptr : Int) (rest : List UInt8) :
    arguments U r.cls ⟨ptr + r.cls.word.length + r.space.toNat, r.header ++ (r.block ++ rest)⟩ =
      .done (r.command ptr) := by
  have hptr (n : Nat) : ptr + n + (true.toNat : Int) - n - 1 = ptr := by
    simp only [Bool.toNat_true]
    omega
  cases r with
  | storage r =>
    have hread := r.storage_eq (ptr + r.cls.word.length + true.toNat) rest
    rw [hptr] at hread
    simp only [cls, space, header, block, command, ← hread]
    have hcls := r.isStorage
    cases hc : r.cls <;> simp_all [arguments, CommandClass.isStorage]
  | keyNumber r =>
    have hread := r.arguments_eq (ptr + r.cls.word.length + true.toNat) rest
    rw [hptr] at hread
    exact hread
  | delete r =>
    have hread := r.delete_eq U (ptr + CommandClass.DELETE.word.length + true.toNat) rest
    rw [hptr] at hread
    exact hread
  | retrieval r =>
    have hread := r.retrieval_eq (ptr + r.cls.word.length + true.toNat) rest
    rw [hptr] at hread
    simp only [cls, space, header, block, command, List.nil_append, ← hread]
    have hcls := r.isRetrieval
    cases hc : r.cls <;> simp_all [arguments, CommandClass.isRetrieval]
  | flushAll r => exact r.flushAll_eq _ rest

/-- A request is parsed to its command, whatever bytes follow. -/
theorem parse_eq (r : Request U) (ptr : Int) (rest : List UInt8) :
    parse U ⟨ptr, r.bytes ++ rest⟩ = .done (r.command ptr) :=
  (r.opens ptr rest).parse_eq.trans (r.arguments_eq ptr rest)

end Request

end Memcarrot.Wire
