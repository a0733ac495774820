import Memcarrot.Parsing.Grammar
import Memcarrot.Server.CommandProcessor
import Memcarrot.Support.ListStore

open Incremental RawMemory

namespace Memcarrot

open Wire

/-- The keys of a command as slices of the input buffer. -/
def MemcachedCommand.keySlices (cmd : MemcachedCommand) : List Slice :=
  if cmd.cls.isRetrieval then cmd.keys
  else if cmd.cls.isAbstract then [⟨cmd.keyPtr, cmd.keySize⟩]
  else []

namespace Parsing

/-- The keys lie one after the other between the command word and the line end, the value lies
behind the key and in front of the two bytes that close its block. -/
structure SafeSlices (cmd : MemcachedCommand) (buf : Int) (size : Nat) : Prop where
  keys : ∀ key ∈ cmd.keySlices, 0 < key.size ∧ buf + cmd.cls.word.length < key.ptr ∧
    key.ptr + key.size + 2 ≤ buf + size
  disjoint : cmd.keySlices.Pairwise fun key key' => key.ptr + key.size < key'.ptr
  value : cmd.cls.isStorage = true → 0 ≤ cmd.valSize ∧ cmd.keyPtr + cmd.keySize < cmd.valPtr ∧
    cmd.valPtr + cmd.valSize + 2 ≤ buf + size

theorem SafeSlices.isMemorySafe {cmd : MemcachedCommand} {buf : Int} {size : Nat}
    (h : SafeSlices cmd buf size) (hbuf : 0 < buf) :
    CommandProcessor.isMemorySafe cmd buf size = true := by
  have hkeys := h.keys
  unfold MemcachedCommand.keySlices at hkeys
  unfold CommandProcessor.isMemorySafe
  cases habstract : cmd.cls.isAbstract with
  | false => rfl
  | true =>
    cases hretrieval : cmd.cls.isRetrieval with
    | true =>
      simp only [hretrieval, if_true] at hkeys
      simp only [Bool.not_true, Bool.false_eq_true, if_false, if_true,
        RetrievalCommand.isMemorySafe, List.all_eq_true]
      intro key hkey
      have hbounds := hkeys key hkey
      simp only [Bool.and_eq_true, decide_eq_true_eq]
      omega
    | false =>
      simp only [habstract, hretrieval, Bool.false_eq_true, if_false, if_true,
        List.mem_singleton, forall_eq] at hkeys
      simp only [Bool.not_true, Bool.false_eq_true, if_false,
        AbstractMemcachedCommand.isMemorySafe]
      have hvalue := h.value
      cases hstorage : cmd.cls.isStorage with
      | false =>
        simp only [Bool.false_eq_true, if_false, Bool.and_eq_true, decide_eq_true_eq]
        omega
      | true =>
        have hvalue := hvalue hstorage
        simp only [if_true, Bool.and_eq_true, decide_eq_true_eq]
        omega

theorem two_le_length_lineEndBytes (gap : Option Nat) : 2 ≤ (lineEndBytes gap).length := by
  cases gap with
  | none => simp [lineEndBytes, CRLF]
  | some extra =>
    simp [lineEndBytes, CRLF]
    omega

/-- Keys one space apart, as slices from `ptr` on. -/
theorem keySlices_bounds (key : Key) (keys : List Key) (ptr : Int) :
    (∀ slice ∈ keySlices ptr (key :: keys), 0 < slice.size ∧ ptr ≤ slice.ptr ∧
      slice.ptr + slice.size ≤ ptr + (key.1 ++ spacedKeys keys).length) ∧
    (keySlices ptr (key :: keys)).Pairwise fun slice slice' =>
      slice.ptr + slice.size < slice'.ptr := by
  have hpos (key : Key) : 0 < key.1.length := List.length_pos_of_ne_nil key.2.nonempty
  induction keys generalizing key ptr with
  | nil =>
    have hkey := hpos key
    simp [keySlices, hkey]
  | cons next keys ih =>
    obtain ⟨hbounds, hdisjoint⟩ := ih next (ptr + key.1.length + 1)
    have hkey := hpos key
    rw [keySlices]
    refine ⟨?_, List.pairwise_cons.mpr ⟨fun slice hslice => ?_, hdisjoint⟩⟩
    · intro slice hslice
      simp only [spacedKeys_cons, List.length_append, List.length_cons] at hbounds ⊢
      rcases List.mem_cons.mp hslice with rfl | hslice
      · simp only
        omega
      · have hslice := hbounds slice hslice
        omega
    · have hslice := hbounds slice hslice
      simp only
      omega

section Requests

variable {U : CacheUtils} {m : Memory} {buf : Int} {size : Nat} {rest : List UInt8}

theorem safeSlices_of_single {cmd : MemcachedCommand} (hretrieval : cmd.cls.isRetrieval = false)
    (hstorage : cmd.cls.isStorage = false) (hsize : 0 < cmd.keySize)
    (hptr : buf + cmd.cls.word.length < cmd.keyPtr)
    (hend : cmd.keyPtr + cmd.keySize + 2 ≤ buf + size) : SafeSlices cmd buf size := by
  refine ⟨?_, ?_, by simp [hstorage]⟩
  · unfold MemcachedCommand.keySlices
    cases cmd.cls.isAbstract <;> simp [hretrieval, hsize, hptr, hend]
  · unfold MemcachedCommand.keySlices
    cases cmd.cls.isAbstract <;> simp [hretrieval]

theorem safeSlices_of_no_keys {cmd : MemcachedCommand} (hkeys : cmd.keySlices = [])
    (hstorage : cmd.cls.isStorage = false) : SafeSlices cmd buf size :=
  ⟨by simp [hkeys], by simp [hkeys], by simp [hstorage]⟩

theorem safeSlices_storage {r : StorageRequest U} (h : m.slice buf size = r.bytes ++ rest) :
    SafeSlices (r.command buf) buf size := by
  have hlength : size = (r.bytes ++ rest).length := by rw [← h, Memory.length_slice]
  have hend := two_le_length_lineEndBytes r.gap
  have hkey := List.length_pos_of_ne_nil r.key.2.nonempty
  have hblock := r.block_length
  have hvalue := r.size_range
  obtain ⟨habstract, hretrieval⟩ := CommandClass.isAbstract_of_isStorage r.isStorage
  simp only [StorageRequest.bytes, StorageRequest.header, List.length_append,
    List.length_cons] at hlength
  refine ⟨?_, ?_, fun _ => ?_⟩
  · simp only [MemcachedCommand.keySlices, StorageRequest.command, habstract, hretrieval,
      Bool.false_eq_true, if_false, if_true, List.mem_singleton, forall_eq]
    omega
  · simp [MemcachedCommand.keySlices, StorageRequest.command, habstract, hretrieval]
  · simp only [StorageRequest.command, StorageRequest.header, List.length_append]
    omega

theorem safeSlices_keyNumber {r : KeyNumberRequest U} (h : m.slice buf size = r.bytes ++ rest) :
    SafeSlices (r.command buf) buf size := by
  have hlength : size = (r.bytes ++ rest).length := by rw [← h, Memory.length_slice]
  have hend := two_le_length_lineEndBytes r.gap
  have hkey := List.length_pos_of_ne_nil r.key.2.nonempty
  simp only [KeyNumberRequest.bytes, KeyNumberRequest.header, List.length_append,
    List.length_cons] at hlength
  refine safeSlices_of_single ?_ ?_ ?_ ?_ ?_
  · rcases r.isKeyNumber with hcls | hcls | hcls <;> simp [KeyNumberRequest.command, hcls] <;> rfl
  · rcases r.isKeyNumber with hcls | hcls | hcls <;> simp [KeyNumberRequest.command, hcls] <;> rfl
  all_goals
    simp only [KeyNumberRequest.command]
    omega

theorem safeSlices_delete {r : DeleteRequest} (h : m.slice buf size = r.bytes ++ rest) :
    SafeSlices (r.command buf) buf size := by
  have hlength : size = (r.bytes ++ rest).length := by rw [← h, Memory.length_slice]
  have hend := two_le_length_lineEndBytes r.gap
  have hkey := List.length_pos_of_ne_nil r.key.2.nonempty
  simp only [DeleteRequest.bytes, DeleteRequest.header, List.length_append,
    List.length_cons] at hlength
  refine safeSlices_of_single rfl rfl ?_ ?_ ?_
  all_goals
    simp only [DeleteRequest.command]
    omega

theorem safeSlices_retrieval {r : RetrievalRequest U} (h : m.slice buf size = r.bytes ++ rest) :
    SafeSlices (r.command buf) buf size := by
  have hlength : size = (r.bytes ++ rest).length := by rw [← h, Memory.length_slice]
  have hstorage := (CommandClass.isAbstract_of_isRetrieval r.isRetrieval).2
  have hslices : (r.command buf).keySlices = keySlices (buf + r.cls.word.length + 1 +
      r.exptimeBytes.length + r.gap) r.keys := by
    simp [MemcachedCommand.keySlices, RetrievalRequest.command, r.isRetrieval]
  cases hkeys : r.keys with
  | nil =>
    refine safeSlices_of_no_keys ?_ hstorage
    rw [hslices, hkeys]
    rfl
  | cons key keys =>
    obtain ⟨hbounds, hdisjoint⟩ := keySlices_bounds key keys
      (buf + r.cls.word.length + 1 + r.exptimeBytes.length + r.gap)
    simp only [RetrievalRequest.bytes, RetrievalRequest.header, hkeys, keysBytes, CRLF,
      List.length_append, List.length_cons, List.length_nil, List.length_replicate] at hlength
    refine ⟨?_, ?_, by simp [RetrievalRequest.command, hstorage]⟩
    · rw [hslices, hkeys]
      intro slice hslice
      have hslice := hbounds slice hslice
      simp only [List.length_append] at hslice
      simp only [RetrievalRequest.command]
      omega
    · rw [hslices, hkeys]
      exact hdisjoint

theorem safeSlices_irregular {bytes : List UInt8} {cmd : MemcachedCommand}
    (h : Irregular bytes cmd) : SafeSlices cmd buf size := by
  cases h with
  | get cls rest hcls =>
    rcases hcls with rfl | rfl <;> exact safeSlices_of_no_keys rfl rfl
  | twoBytes cls space first second hcls hfirst hspace =>
    rcases hcls with rfl | rfl | rfl <;> exact safeSlices_of_no_keys rfl rfl
  | _ => exact safeSlices_of_no_keys rfl rfl

theorem safeSlices_request {r : Request U} (h : m.slice buf size = r.bytes ++ rest) :
    SafeSlices (r.command buf) buf size := by
  cases r with
  | storage r => exact safeSlices_storage h
  | keyNumber r => exact safeSlices_keyNumber (h.trans (by rw [Request.bytes_keyNumber]))
  | delete r => exact safeSlices_delete (h.trans (by rw [Request.bytes_delete]))
  | retrieval r => exact safeSlices_retrieval (h.trans (by rw [Request.bytes_retrieval]))
  | flushAll r =>
    have hcls := (Request.flushAll r).cls_command buf
    refine safeSlices_of_no_keys ?_ ?_
    · simp [MemcachedCommand.keySlices, hcls, Request.cls, CommandClass.isRetrieval,
        CommandClass.isAbstract, CommandClass.isStorage]
    · rw [hcls]
      rfl

theorem safeSlices_of_parse {cmd : MemcachedCommand}
    (h : (CommandParser.parse U buf size).run m = .done cmd) : SafeSlices cmd buf size := by
  rcases parse_run_eq_done_iff.mp h with ⟨r, rest, hrest, rfl⟩ | hirregular
  · exact safeSlices_request hrest
  · exact safeSlices_irregular hirregular

end Requests

theorem process_eq_of_isMemorySafe {σ : Type} {services : Services σ} {m : Memory}
    {buf size : Int} {cmd : MemcachedCommand}
    (h : (CommandParser.parse services.utils buf size).run m = .done cmd)
    (hsafe : CommandProcessor.isMemorySafe cmd buf size = true) (outSize : Int) (s : σ) :
    CommandProcessor.process services m buf size outSize s =
      let run := (cmd.operation m).execute services outSize s
      { store := run.store, chunks := run.chunks, lastCommand := some cmd
        executed := some (cmd.operation m), result := run.outcome.result } := by
  unfold CommandProcessor.process
  rw [h]
  simp only [hsafe, if_true]

/-- The last command of a call is the one that is parsed, and it is executed. -/
theorem parse_of_process_lastCommand {σ : Type} {services : Services σ} {m : Memory} {buf : Int}
    {size : Nat} {outSize : Int} {s : σ} {cmd : MemcachedCommand} (hbuf : 0 < buf)
    (h : (CommandProcessor.process services m buf size outSize s).lastCommand = some cmd) :
    (CommandParser.parse services.utils buf size).run m = .done cmd ∧
      (CommandProcessor.process services m buf size outSize s).executed.isSome = true := by
  cases hparse : (CommandParser.parse services.utils buf size).run m with
  | incomplete =>
    unfold CommandProcessor.process at h
    rw [hparse] at h
    cases h
  | failed e =>
    unfold CommandProcessor.process at h
    rw [hparse] at h
    cases e <;> cases h
  | done parsed =>
    have hsafe := (safeSlices_of_parse hparse).isMemorySafe hbuf
    rw [process_eq_of_isMemorySafe hparse hsafe] at h ⊢
    cases h
    exact ⟨rfl, rfl⟩

/-- The slices of every command that is parsed are memory safe, and the command is executed. -/
theorem parse_memory_safe {σ : Type} (services : Services σ) {m : Memory} {buf : Int}
    {size : Nat} {cmd : MemcachedCommand} (hbuf : 0 < buf)
    (h : (CommandParser.parse services.utils buf size).run m = .done cmd) :
    SafeSlices cmd buf size ∧ CommandProcessor.isMemorySafe cmd buf size = true ∧
      ∀ (outSize : Int) (s : σ), CommandProcessor.process services m buf size outSize s =
        let run := (cmd.operation m).execute services outSize s
        { store := run.store, chunks := run.chunks, lastCommand := some cmd
          executed := some (cmd.operation m), result := run.outcome.result } := by
  have hslices := safeSlices_of_parse h
  have hsafe := hslices.isMemorySafe hbuf
  exact ⟨hslices, hsafe, process_eq_of_isMemorySafe h hsafe⟩

theorem parse_memory_safe_get :
    let m := Memory.ofBytes 100 (ascii "get a bc\r\n")
    let cmd : MemcachedCommand :=
      { cls := .GET, keys := [⟨104, 1⟩, ⟨106, 2⟩], consumed := 6 }
    SafeSlices cmd 100 10 ∧ CommandProcessor.isMemorySafe cmd 100 (10 : Nat) = true ∧
      ∀ (outSize : Int) (s : ListStore),
        CommandProcessor.process listServices m 100 (10 : Nat) outSize s =
          let run := (cmd.operation m).execute listServices outSize s
          { store := run.store, chunks := run.chunks, lastCommand := some cmd
            executed := some (cmd.operation m), result := run.outcome.result } :=
  parse_memory_safe listServices (by decide) (by decide +kernel)

end Parsing

end Memcarrot
