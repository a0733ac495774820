import Memcarrot.Wire.Language

open RawMemory

namespace Memcarrot

/-- The bytes of the key that a command refers to. -/
def MemcachedCommand.keyBytes (cmd : MemcachedCommand) (m : Memory) : List UInt8 :=
  m.slice cmd.keyPtr cmd.keySize.toNat

/-- The bytes of the value that a storage command refers to. -/
def MemcachedCommand.valueBytes (cmd : MemcachedCommand) (m : Memory) : List UInt8 :=
  m.slice cmd.valPtr cmd.valSize.toNat

/-- The bytes of the keys that a retrieval command refers to. -/
def MemcachedCommand.keysBytes (cmd : MemcachedCommand) (m : Memory) : List (List UInt8) :=
  cmd.keys.map fun key => m.slice key.ptr key.size.toNat

namespace Wire

variable {U : CacheUtils} {m : Memory} {buf : Int} {size : Nat} {rest : List UInt8}

/-- The key behind the command word. -/
theorem slice_key {word key : List UInt8} (back : List UInt8)
    (h : m.slice buf size = word ++ SP :: (key ++ back)) :
    m.slice (buf + word.length + 1) key.length = key := by
  have hkey : m.slice buf size = (word ++ [SP]) ++ (key ++ back) := h.trans (by simp)
  simpa [Int.add_assoc] using Memory.slice_middle hkey

theorem StorageRequest.keyBytes_command {r : StorageRequest U}
    (h : m.slice buf size = r.bytes ++ rest) : (r.command buf).keyBytes m = r.key.1 :=
  slice_key (fieldsBytes r.numbers ++ (lineEndBytes r.gap ++ (r.block ++ rest)))
    (h.trans (by simp [StorageRequest.bytes, StorageRequest.header]))

/-- The data in front of the two bytes that close the block. -/
def StorageRequest.value (r : StorageRequest U) : List UInt8 := r.block.take r.size.value.toNat

theorem StorageRequest.length_value (r : StorageRequest U) :
    r.value.length = r.size.value.toNat := by
  have hlength := r.block_length
  rw [StorageRequest.value, List.length_take]
  omega

theorem StorageRequest.valueBytes_command {r : StorageRequest U}
    (h : m.slice buf size = r.bytes ++ rest) : (r.command buf).valueBytes m = r.value := by
  have hblock : r.block = r.value ++ r.block.drop r.size.value.toNat :=
    (List.take_append_drop _ _).symm
  have hbytes : r.bytes ++ rest = (r.cls.word ++ SP :: r.header) ++
      (r.value ++ (r.block.drop r.size.value.toNat ++ rest)) := by
    rw [← List.append_assoc r.value, ← hblock]
    simp [StorageRequest.bytes]
  have hmiddle := Memory.slice_middle (h.trans hbytes)
  have hptr : buf + ((r.cls.word ++ SP :: r.header).length : Int) =
      buf + r.cls.word.length + 1 + r.header.length := by
    simp only [List.length_append, List.length_cons]
    omega
  rw [r.length_value, hptr] at hmiddle
  exact hmiddle

theorem KeyNumberRequest.keyBytes_command {r : KeyNumberRequest U}
    (h : m.slice buf size = r.bytes ++ rest) : (r.command buf).keyBytes m = r.key.1 :=
  slice_key (fieldsBytes [r.number] ++ (lineEndBytes r.gap ++ rest))
    (h.trans (by simp [KeyNumberRequest.bytes, KeyNumberRequest.header]))

theorem DeleteRequest.keyBytes_command {r : DeleteRequest}
    (h : m.slice buf size = r.bytes ++ rest) : (r.command buf).keyBytes m = r.key.1 :=
  slice_key (lineEndBytes r.gap ++ rest)
    (h.trans (by simp [DeleteRequest.bytes, DeleteRequest.header]))

/-- Keys that stand one space apart. -/
theorem slice_keySlices {key : Key} {keys : List Key} {front back : List UInt8}
    (h : m.slice buf size = front ++ (key.1 ++ (spacedKeys keys ++ back))) :
    (keySlices (buf + front.length) (key :: keys)).map (fun key => m.slice key.ptr key.size.toNat) =
      (key :: keys).map Subtype.val := by
  induction keys generalizing key front with
  | nil =>
    have hkey := Memory.slice_middle h
    simp [keySlices, hkey]
  | cons next keys ih =>
    have hkey := Memory.slice_middle h
    have hfront : buf + (front.length : Int) + key.1.length + 1 =
        buf + ((front ++ key.1 ++ [SP]).length : Int) := by
      simp only [List.length_append, List.length_singleton]
      omega
    rw [keySlices, hfront, List.map_cons, ih (h.trans (by simp))]
    simp [hkey]

theorem RetrievalRequest.keysBytes_command {r : RetrievalRequest U}
    (h : m.slice buf size = r.bytes ++ rest) :
    (r.command buf).keysBytes m = r.keys.map Subtype.val := by
  unfold MemcachedCommand.keysBytes RetrievalRequest.command
  cases hkeys : r.keys with
  | nil => rfl
  | cons key keys =>
    have hbytes : m.slice buf size =
        (r.cls.word ++ SP :: (r.exptimeBytes ++ List.replicate r.gap SP)) ++
          (key.1 ++ (spacedKeys keys ++ (CRLF ++ rest))) :=
      h.trans (by simp [RetrievalRequest.bytes, RetrievalRequest.header, hkeys, keysBytes])
    have hslices := slice_keySlices hbytes
    have hptr : buf + ((r.cls.word ++ SP :: (r.exptimeBytes ++ List.replicate r.gap SP)).length :
        Int) = buf + r.cls.word.length + 1 + r.exptimeBytes.length + r.gap := by
      simp only [List.length_append, List.length_cons, List.length_replicate]
      omega
    rw [hptr] at hslices
    exact hslices

end Wire

end Memcarrot
