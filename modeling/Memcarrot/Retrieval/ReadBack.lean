import Memcarrot.Parsing.Grammar
import Memcarrot.Retrieval.Answers
import Memcarrot.Support.ListStore

open Incremental RawMemory

namespace Memcarrot

namespace RetrievalCommand

/-- The lines of a record in the response to get. -/
def valueLines (key : List UInt8) (flags : Int) (data : List UInt8) : List UInt8 :=
  ascii "VALUE " ++ key ++ SP :: Decimal.toString flags ++ SP :: Decimal.toString data.length ++
    CRLF ++ data ++ CRLF

theorem length_valueLines (key : List UInt8) (flags : Int) (data : List UInt8) :
    (valueLines key flags data).length =
      key.length + (Decimal.toString flags).length + (Decimal.toString data.length).length +
        data.length + 12 := by
  simp only [valueLines, List.length_append, List.length_cons,
    show (ascii "VALUE ").length = 6 from rfl, show CRLF.length = 2 from rfl]
  omega

/-- A single key whose record is found leads to the exception if the record and END exceed the
buffer. -/
theorem overflow_single_iff {σ : Type} {fetch : List UInt8 → σ → Record × σ} (outBufferSize : Int)
    (write : Record → List UInt8 → List UInt8) {key : List UInt8} {s : σ}
    (h : (fetch key s).1.value ≠ none) :
    (executeLoop fetch write outBufferSize [key] [] s).outcome = .bufferOverflow ↔
      outBufferSize < (write (fetch key s).1 key).length + 5 := by
  by_cases hsize : ((write (fetch key s).1 key).length : Int) > outBufferSize - 5
  · rw [executeLoop_tooLarge h hsize]
    exact iff_of_true rfl (by omega)
  · rw [executeLoop_first h (Int.not_lt.mp hsize)]
    exact iff_of_false (by simp) (by omega)

end RetrievalCommand

open RetrievalCommand

/-- get with a single key. -/
def GET.operation (key : List UInt8) : Operation := { cls := .GET, keys := [key] }

theorem GET.execute_operation {σ : Type} (services : Services σ) (outBufferSize : Int)
    (key : List UInt8) (s : σ) :
    (GET.operation key).execute services outBufferSize s =
      executeLoop services.support.get (fun r key => services.support.write r key false)
        outBufferSize [key] [] s := rfl

namespace Parsing

/-- The fields of a storage command that is accepted are the lengths of what they refer to. -/
theorem length_of_storage {U : CacheUtils} {m : Memory} {buf : Int} {size : Nat}
    {cmd : MemcachedCommand} (h : (CommandParser.parse U buf size).run m = .done cmd)
    (hcls : cmd.cls.isStorage = true) :
    ((cmd.keyBytes m).length : Int) = cmd.keySize ∧
      ((cmd.valueBytes m).length : Int) = cmd.valSize := by
  obtain ⟨r, rest, -, rfl, hkey, hvalue⟩ := (parse_grammar h).1 hcls
  have hrange := r.size_range
  have hsize : (r.command buf).valSize = r.size.value := rfl
  rw [hkey, hvalue, r.length_value, hsize]
  exact ⟨rfl, by omega⟩

/-- What a set request of at most the size of the buffers stores is read back unless the record
with END exceeds the buffer. -/
theorem read_back_iff {σ : Type} {services : Services σ}
    (hwrite : ∀ r key data, r.value = some data →
      services.support.write r key false = valueLines key r.flags data)
    {m : Memory} {buf : Int} {size : Nat} {cmd : MemcachedCommand}
    (hparse : (CommandParser.parse services.utils buf size).run m = .done cmd)
    (hcls : cmd.cls = .SET) {s : σ} {cas : Int}
    (hget : (services.support.get (cmd.keyBytes m) s).1 =
      { value := some (cmd.valueBytes m), flags := FLUSH_ALL.toInt cmd.flags, cas })
    (bufferSize : Int) :
    (cmd.inputConsumed ≤ bufferSize →
        ((GET.operation (cmd.keyBytes m)).execute services bufferSize s).outcome ≠
          .bufferOverflow) ↔
      (cmd.inputConsumed ≤ bufferSize →
        cmd.keySize + (Decimal.toString (FLUSH_ALL.toInt cmd.flags)).length +
          (Decimal.toString cmd.valSize).length + cmd.valSize + 17 ≤ bufferSize) := by
  obtain ⟨hkey, hvalue⟩ := length_of_storage hparse (by rw [hcls]; rfl)
  have hpresent : (services.support.get (cmd.keyBytes m) s).1.value ≠ none := by
    rw [hget]
    exact Option.some_ne_none _
  have hlength := length_valueLines (cmd.keyBytes m) (FLUSH_ALL.toInt cmd.flags) (cmd.valueBytes m)
  rw [hvalue] at hlength
  have hiff := overflow_single_iff bufferSize
    (fun r key => services.support.write r key false) hpresent
  rw [hget, hwrite _ _ _ rfl, hlength] at hiff
  rw [GET.execute_operation]
  refine imp_congr_right fun _ => (not_congr hiff).trans ?_
  rw [Int.not_lt]
  omega

theorem listServices_write (r : Record) (key data : List UInt8) (hdata : r.value = some data) :
    listServices.support.write r key false = valueLines key r.flags data := by
  show ListStore.encode r key false = _
  simp [ListStore.encode, valueLines, hdata]

/-- A request of 16 bytes, whose record needs 21 bytes with END. -/
theorem read_back_smallest :
    let m := Memory.ofBytes 100 (ascii "set k 0 0 1\r\nx\r\n")
    ∃ cmd, (CommandParser.parse decimalUtils 100 (16 : Nat)).run m = .done cmd ∧
      ((GET.operation (ascii "k")).execute listServices 21
        ((cmd.operation m).execute listServices 21 {}).store).outcome ≠ .bufferOverflow := by
  intro m
  let cmd : MemcachedCommand :=
    { cls := .SET, keyPtr := 104, keySize := 1, valPtr := 113, valSize := 1, consumed := 12 }
  have hparse : (CommandParser.parse decimalUtils 100 (16 : Nat)).run m = .done cmd := by
    decide +kernel
  have hget : (listServices.support.get (cmd.keyBytes m)
      ((cmd.operation m).execute listServices 21 {}).store).1 =
        { value := some (cmd.valueBytes m), flags := FLUSH_ALL.toInt cmd.flags, cas := 1 } := by
    decide +kernel
  refine ⟨cmd, hparse, (read_back_iff listServices_write hparse rfl hget 21).mpr ?_ ?_⟩
  · exact fun _ => by decide +kernel
  · decide

/-- A request that fills a buffer of 128 bytes stores a record that cannot be returned. -/
theorem not_read_back_full :
    ¬ ∀ (services : Services ListStore), (∀ r key data, r.value = some data →
        services.support.write r key false = valueLines key r.flags data) →
      ∀ (m : Memory) (buf : Int) (size : Nat) (cmd : MemcachedCommand),
        (CommandParser.parse services.utils buf size).run m = .done cmd → cmd.cls = .SET →
      ∀ (s : ListStore) (cas : Int), (services.support.get (cmd.keyBytes m) s).1 =
          { value := some (cmd.valueBytes m), flags := FLUSH_ALL.toInt cmd.flags, cas } →
      ∀ bufferSize : Int, cmd.inputConsumed ≤ bufferSize →
        ((GET.operation (cmd.keyBytes m)).execute services bufferSize s).outcome ≠
          .bufferOverflow := by
  intro h
  let m := Memory.ofBytes 100 (ascii "set k 0 0 111\r\n" ++ (List.replicate 111 0x78 ++ CRLF))
  let cmd : MemcachedCommand :=
    { cls := .SET, keyPtr := 104, keySize := 1, valPtr := 115, valSize := 111, consumed := 124 }
  have hparse : (CommandParser.parse decimalUtils 100 (128 : Nat)).run m = .done cmd := by
    decide +kernel
  have hget : (listServices.support.get (cmd.keyBytes m)
      ((cmd.operation m).execute listServices 128 {}).store).1 =
        { value := some (cmd.valueBytes m), flags := FLUSH_ALL.toInt cmd.flags, cas := 1 } := by
    decide +kernel
  have hreads := h listServices listServices_write m 100 128 cmd hparse rfl _ 1 hget 128 (by decide)
  exact hreads (by decide +kernel)

end Parsing

end Memcarrot
