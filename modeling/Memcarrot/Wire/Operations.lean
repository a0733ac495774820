import Memcarrot.Commands.Execute
import Memcarrot.Wire.Slices

open RawMemory

namespace Memcarrot.Wire

variable {U : CacheUtils} {m : Memory} {buf : Int} {size : Nat} {rest : List UInt8}

def FlushRequest.noreply : FlushRequest U → Bool
  | now => false
  | nowNoreply => true
  | delayed _ gap _ _ => gap.isSome

def FlushRequest.delay : FlushRequest U → Int
  | delayed delay _ _ _ => FLUSH_ALL.toInt delay.value
  | _ => 0

/-- What a request asks for, wherever its bytes are. -/
def Request.operation : Request U → Operation
  | storage r =>
    { cls := r.cls, key := r.key.1, data := r.value, flags := r.flags.value
      exptime := r.exptime.value, cas := r.cas.elim 0 Number.value, noreply := r.gap.isSome }
  | keyNumber r =>
    { cls := r.cls, key := r.key.1
      value := if r.cls = .TOUCH then 0 else r.number.value
      exptime := if r.cls = .TOUCH then r.number.value else 0
      noreply := r.gap.isSome }
  | delete r => { cls := .DELETE, key := r.key.1, noreply := r.gap.isSome }
  | retrieval r =>
    { cls := r.cls, keys := r.keys.map Subtype.val, exptime := r.exptime.elim 0 Number.value }
  | flushAll r => { cls := .FLUSH_ALL, noreply := r.noreply, delay := r.delay }

theorem StorageRequest.operation_command {r : StorageRequest U}
    (h : m.slice buf size = r.bytes ++ rest) :
    (r.command buf).operation m = (Request.storage r).operation := by
  have hkey : m.slice (r.command buf).keyPtr (r.command buf).keySize.toNat = r.key.1 :=
    r.keyBytes_command h
  have hdata : m.slice (r.command buf).valPtr (r.command buf).valSize.toNat = r.value :=
    r.valueBytes_command h
  have hstorage : (r.command buf).cls.isStorage = true := r.isStorage
  obtain ⟨habstract, hretrieval⟩ := CommandClass.isAbstract_of_isStorage hstorage
  simp only [MemcachedCommand.operation, habstract, hretrieval, hstorage, hkey, hdata,
    Bool.not_false, Bool.and_true, if_true]
  rfl

theorem KeyNumberRequest.operation_command {r : KeyNumberRequest U}
    (h : m.slice buf size = r.bytes ++ rest) :
    (r.command buf).operation m = (Request.keyNumber r).operation := by
  have hkey : m.slice (r.command buf).keyPtr (r.command buf).keySize.toNat = r.key.1 :=
    r.keyBytes_command h
  have hcls : (r.command buf).cls = .INCR ∨ (r.command buf).cls = .DECR ∨
      (r.command buf).cls = .TOUCH := r.isKeyNumber
  have hclasses : (r.command buf).cls.isAbstract = true ∧
      (r.command buf).cls.isRetrieval = false ∧ (r.command buf).cls.isStorage = false := by
    rcases hcls with hc | hc | hc <;> rw [hc] <;> decide
  simp only [MemcachedCommand.operation, hclasses, hkey, Bool.not_false, Bool.and_true, if_true,
    Bool.false_eq_true, if_false]
  rfl

theorem DeleteRequest.operation_command {r : DeleteRequest}
    (h : m.slice buf size = r.bytes ++ rest) :
    (r.command buf).operation m = (Request.delete r : Request U).operation := by
  have hkey : m.slice (r.command buf).keyPtr (r.command buf).keySize.toNat = r.key.1 :=
    r.keyBytes_command h
  have hcls : (r.command buf).cls = .DELETE := rfl
  simp only [MemcachedCommand.operation, hcls, hkey, CommandClass.isAbstract,
    CommandClass.isRetrieval, CommandClass.isStorage, Bool.not_false, Bool.and_true, if_true,
    Bool.false_eq_true, if_false]
  rfl

theorem RetrievalRequest.operation_command {r : RetrievalRequest U}
    (h : m.slice buf size = r.bytes ++ rest) :
    (r.command buf).operation m = (Request.retrieval r).operation := by
  have hkeys : (r.command buf).keys.map (fun key => m.slice key.ptr key.size.toNat) =
      r.keys.map Subtype.val := r.keysBytes_command h
  have hretrieval : (r.command buf).cls.isRetrieval = true := r.isRetrieval
  obtain ⟨-, hstorage⟩ := CommandClass.isAbstract_of_isRetrieval hretrieval
  simp only [MemcachedCommand.operation, hretrieval, hstorage, hkeys, Bool.not_true,
    Bool.and_false, Bool.false_eq_true, if_false]
  rfl

theorem FlushRequest.operation_command (r : FlushRequest U) :
    r.command.operation m = (Request.flushAll r).operation := by
  cases r <;> rfl

/-- Executing the command of a request does what the request asks for. -/
theorem Request.operation_command {r : Request U} (h : m.slice buf size = r.bytes ++ rest) :
    (r.command buf).operation m = r.operation := by
  cases r with
  | storage r => exact r.operation_command h
  | keyNumber r => exact r.operation_command (by simpa using h)
  | delete r => exact r.operation_command (by simpa using h)
  | retrieval r => exact r.operation_command (by simpa using h)
  | flushAll r => exact r.operation_command

end Memcarrot.Wire
