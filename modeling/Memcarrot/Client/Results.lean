import Memcarrot.Client.Calls
import Memcarrot.Client.OneLine
import Memcarrot.Client.Records
import Memcarrot.Retrieval.Answers

namespace Memcarrot

open Item RetrievalCommand SimpleClient

variable {σ : Type}

/-- The code of what the store answers. -/
def OpResult.code : OpResult → ResponseCode
  | STORED => .STORED
  | NOT_STORED => .NOT_STORED
  | EXISTS => .EXISTS
  | NOT_FOUND => .NOT_FOUND
  | DELETED => .DELETED

namespace ClientCall

/-- What a call with an answer returns. -/
def answered (noreply : Bool) (answer : Answer) : CallResult :=
  if noreply then .null else .answer answer

def coded (noreply : Bool) (result : OpResult × σ) : CallResult × σ :=
  (answered noreply (.code result.1.code), result.2)

/-- Minus one is the answer of the store where there is no item. -/
def touched (noreply : Bool) (result : Int × σ) : CallResult × σ :=
  (answered noreply (.code (if result.1 = -1 then .NOT_FOUND else .TOUCHED)), result.2)

def counted (noreply : Bool) (result : Counted × σ) : CallResult × σ :=
  (answered noreply
    (match result.1 with
    | .value value => if value = -1 then .code .NOT_FOUND else .number value
    | .numberFormat | .illegalArgument _ => .code .CLIENT_ERROR), result.2)

/-- The record that is found under a key, if there is one. -/
def found (withCas : Bool) (key : List UInt8) (r : Record) : Option GetResult :=
  r.value.map fun value =>
    { key, value, flags := r.flags, cas := if withCas then some r.cas else none }

/-- The records that are found under keys, one after the other. -/
def records (fetch : List UInt8 → σ → Record × σ) (withCas : Bool) :
    List (List UInt8) → σ → List GetResult × σ
  | [], s => ([], s)
  | key :: keys, s =>
    let (r, s) := fetch key s
    let (rest, s) := records fetch withCas keys s
    ((found withCas key r).toList ++ rest, s)

def fetched (result : List GetResult × σ) : CallResult × σ := (.records result.1, result.2)

/-- What a call is to do: call the store, and return what it answers. -/
def perform (support : Memcached σ) : ClientCall → σ → CallResult × σ
  | set key value flags expire noreply, s =>
    coded noreply (support.set key value flags.toInt expire.toInt s)
  | add key value flags expire noreply, s =>
    coded noreply (support.add key value flags.toInt expire.toInt s)
  | replace key value flags expire noreply, s =>
    coded noreply (support.replace key value flags.toInt expire.toInt s)
  | append key value flags expire noreply, s =>
    coded noreply (support.append key value flags.toInt expire.toInt s)
  | prepend key value flags expire noreply, s =>
    coded noreply (support.prepend key value flags.toInt expire.toInt s)
  | cas key value flags expire noreply unique, s =>
    coded noreply (support.cas key value flags.toInt expire.toInt unique.toInt s)
  | get keys, s => fetched (records support.get false keys s)
  | gets keys, s => fetched (records support.gets true keys s)
  | gat expire keys, s => fetched (records (fun key => support.gat key expire.toInt) false keys s)
  | gats expire keys, s => fetched (records (fun key => support.gats key expire.toInt) true keys s)
  | delete key noreply, s => coded noreply (support.delete key s)
  | touch key expire noreply, s => touched noreply (support.touch key expire.toInt s)
  | incr key value noreply, s => counted noreply (support.incr key value.toInt s)
  | decr key value noreply, s => counted noreply (support.decr key value.toInt s)

/-- Records that are found again if they are asked for twice. -/
def FoundAgain (fetch : List UInt8 → σ → Record × σ) : List (List UInt8) → σ → Prop
  | [], _ => True
  | key :: keys, s =>
    fetch key (fetch key s).2 = fetch key s ∧ FoundAgain fetch keys (fetch key s).2

/-- A record that is written so that the client can read it back. -/
def ReadableItem (P : Platform) (item : Item) : Prop :=
  ¬ END <:+: item.value ++ CRLF ∧ P.encode (P.decode item.key) = item.key

def ReadableRecords (P : Platform) (fetch : List UInt8 → σ → Record × σ)
    (write : Record → List UInt8 → List UInt8) (withCas : Bool) : List (List UInt8) → σ → Prop
  | [], _ => True
  | key :: keys, s =>
    (∀ one, found withCas key (fetch key s).1 = some one → ∃ item : Item,
      write (fetch key s).1 key = item.lines ∧ item.result = one ∧ ReadableItem P item) ∧
    ReadableRecords P fetch write withCas keys (fetch key s).2

/-- Records that can be read back, and that fit into one buffer or are found again. -/
def ReadableRetrieval (P : Platform) (fetch : List UInt8 → σ → Record × σ)
    (write : Record → List UInt8 → List UInt8) (withCas : Bool) (size : Int)
    (keys : List (List UInt8)) (s : σ) : Prop :=
  ReadableRecords P fetch write withCas keys s ∧
    (AnswersFit fetch write size keys s ∨ FoundAgain fetch keys s)

/-- A count that is a long and not negative, minus one where there is no item, or an error whose
message is one line. -/
def ReadableCount (item : Record) : Counted → Prop
  | .value value => 0 ≤ value ∧ value < 2 ^ 63 ∨ value = -1 ∧ item.value = none
  | .numberFormat => True
  | .illegalArgument msg => LF ∉ msg

def IsStored (result : OpResult) : Prop := result = .STORED ∨ result = .NOT_STORED

/-- What the store answers is an answer of its method, and can be told to the client. -/
def Readable (P : Platform) (support : Memcached σ) (size : Int) : ClientCall → σ → Prop
  | set key value flags expire _, s =>
    IsStored (support.set key value flags.toInt expire.toInt s).1
  | add key value flags expire _, s =>
    IsStored (support.add key value flags.toInt expire.toInt s).1
  | replace key value flags expire _, s =>
    IsStored (support.replace key value flags.toInt expire.toInt s).1
  | append key value flags expire _, s =>
    IsStored (support.append key value flags.toInt expire.toInt s).1
  | prepend key value flags expire _, s =>
    IsStored (support.prepend key value flags.toInt expire.toInt s).1
  | cas key value flags expire _ unique, s =>
    (support.cas key value flags.toInt expire.toInt unique.toInt s).1 ≠ .DELETED
  | get keys, s => ReadableRetrieval P support.get (support.write · · false) false size keys s
  | gets keys, s => ReadableRetrieval P support.gets (support.write · · true) true size keys s
  | gat expire keys, s =>
    ReadableRetrieval P (fun key => support.gat key expire.toInt) (support.write · · false) false
      size keys s
  | gats expire keys, s =>
    ReadableRetrieval P (fun key => support.gats key expire.toInt) (support.write · · true) true
      size keys s
  | delete key _, s => (support.delete key s).1 = .DELETED ∨ (support.delete key s).1 = .NOT_FOUND
  | touch key expire _, s => -1 ≤ (support.touch key expire.toInt s).1
  | incr key value _, s => ReadableCount (support.get key s).1 (support.incr key value.toInt s).1
  | decr key value _, s => ReadableCount (support.get key s).1 (support.decr key value.toInt s).1

section Records

variable {P : Platform} {fetch : List UInt8 → σ → Record × σ}
  {write : Record → List UInt8 → List UInt8} {withCas : Bool} {outBufferSize : Int}
  {keys : List (List UInt8)} {key : List UInt8} {s : σ}

/-- What is written of the records, if each is asked for once. -/
theorem exists_items (h : ReadableRecords P fetch write withCas keys s) :
    ∃ items : List Item, (answers fetch write keys s).1.flatten = items.flatMap lines ∧
      items.map result = (records fetch withCas keys s).1 ∧
      (answers fetch write keys s).2 = (records fetch withCas keys s).2 ∧
      ∀ item ∈ items, ReadableItem P item := by
  induction keys generalizing s with
  | nil => exact ⟨[], rfl, rfl, rfl, by simp⟩
  | cons key keys ih =>
    obtain ⟨hreadable, hrest⟩ := h
    obtain ⟨items, hwritten, hresults, hstore, hitems⟩ := ih hrest
    cases hvalue : (fetch key s).1.value with
    | none =>
      rw [answers_absent hvalue]
      exact ⟨items, hwritten, by simpa [records, found, hvalue] using hresults, hstore, hitems⟩
    | some value =>
      obtain ⟨item, hlines, hresult, hitem⟩ := hreadable _ (by simp only [found, hvalue]; rfl)
      rw [answers_found (by simp [hvalue])]
      refine ⟨item :: items, ?_, ?_, hstore, by simpa [hitem] using hitems⟩
      · simp only [List.flatten_cons, hwritten, hlines, List.flatMap_cons]
      · simp only [records, List.map_cons, hresults, hresult, found, hvalue, Option.map_some,
          Option.toList_some, List.singleton_append]

/-- The records are sent in order, each once, however many chunks they need. -/
theorem exists_items_of_foundAgain (h : ReadableRecords P fetch write withCas keys s)
    (hfound : FoundAgain fetch keys s) {out bytes : List UInt8}
    (houtcome : (executeLoop fetch write outBufferSize keys out s).outcome = .response bytes) :
    ∃ items, (executeLoop fetch write outBufferSize keys out s).chunks.flatten ++ bytes =
        out ++ response items ∧
      items.map result = (records fetch withCas keys s).1 ∧
      (executeLoop fetch write outBufferSize keys out s).store =
        (records fetch withCas keys s).2 ∧
      ∀ item ∈ items, ReadableItem P item := by
  induction keys generalizing out s with
  | nil =>
    obtain rfl := Outcome.response.inj houtcome
    exact ⟨[], rfl, rfl, rfl, by simp⟩
  | cons key keys ih =>
    obtain ⟨hreadable, hrest⟩ := h
    obtain ⟨hagain, hfound⟩ := hfound
    cases hvalue : (fetch key s).1.value with
    | none =>
      rw [executeLoop_absent hvalue] at houtcome ⊢
      simpa [records, found, hvalue] using ih hrest hfound houtcome
    | some value =>
      have hne : (fetch key s).1.value ≠ none := by simp [hvalue]
      obtain ⟨item, hlines, hresult, hitem⟩ := hreadable _ (by simp only [found, hvalue]; rfl)
      -- from the record of this key on, whatever is in the buffer before it
      have hnext {front : List UInt8} (h : (executeLoop fetch write outBufferSize keys
          (front ++ item.lines) (fetch key s).2).outcome = .response bytes) :
          ∃ items, (executeLoop fetch write outBufferSize keys (front ++ item.lines)
              (fetch key s).2).chunks.flatten ++ bytes = front ++ response items ∧
            items.map result = (records fetch withCas (key :: keys) s).1 ∧
            (executeLoop fetch write outBufferSize keys (front ++ item.lines)
              (fetch key s).2).store = (records fetch withCas (key :: keys) s).2 ∧
            ∀ item ∈ items, ReadableItem P item := by
        obtain ⟨items, hsent, hresults, hstore, hitems⟩ := ih hrest hfound h
        refine ⟨item :: items, ?_, ?_, hstore, by simpa [hitem] using hitems⟩
        · rw [hsent]
          simp only [response, List.flatMap_cons, List.append_assoc]
        · simp only [records, List.map_cons, hresults, hresult, found, hvalue, Option.map_some,
            Option.toList_some, List.singleton_append]
      rcases Int.lt_or_le (outBufferSize - out.length - 5) (write (fetch key s).1 key).length with
        hfull | hfits
      · cases out with
        | nil =>
          rw [executeLoop_tooLarge hne (by simpa using hfull)] at houtcome
          cases houtcome
        | cons b out =>
          have hsame : (fetch key (fetch key s).2).1 = (fetch key s).1 := by rw [hagain]
          rcases Int.lt_or_le (outBufferSize - 5) (write (fetch key s).1 key).length with
            htooLarge | hfirst
          · rw [executeLoop_full hne hfull (List.cons_ne_nil b out),
              executeLoop_tooLarge (by rwa [hsame]) (by rwa [hsame])] at houtcome
            cases houtcome
          · rw [executeLoop_again hne hfull (List.cons_ne_nil b out) hsame hfirst, hagain,
              hlines] at houtcome ⊢
            obtain ⟨items, hsent, hfacts⟩ := @hnext [] houtcome
            refine ⟨items, ?_, hfacts⟩
            simp only [List.flatten_cons, List.append_assoc]
            exact congrArg _ hsent
      · rw [executeLoop_fits hne hfits, hlines] at houtcome ⊢
        exact hnext houtcome

theorem exists_items_of_readable (h : ReadableRetrieval P fetch write withCas outBufferSize keys s)
    {bytes : List UInt8}
    (houtcome : (executeLoop fetch write outBufferSize keys [] s).outcome = .response bytes) :
    ∃ items, (executeLoop fetch write outBufferSize keys [] s).chunks.flatten ++ bytes =
        response items ∧
      items.map result = (records fetch withCas keys s).1 ∧
      (executeLoop fetch write outBufferSize keys [] s).store =
        (records fetch withCas keys s).2 ∧
      ∀ item ∈ items, ReadableItem P item := by
  obtain ⟨hreadable, hfits | hfound⟩ := h
  · obtain ⟨items, hwritten, hresults, hstore, hitems⟩ := exists_items hreadable
    rw [executeLoop_of_fits hfits] at houtcome ⊢
    obtain rfl := Outcome.response.inj houtcome
    refine ⟨items, ?_, hresults, hstore, hitems⟩
    simp only [List.flatten_nil, List.nil_append, hwritten, response]
  · simpa using exists_items_of_foundAgain hreadable hfound houtcome

end Records

section Lines

variable {P : Platform} {services : Services σ} {size : Int} {kind : RequestKind} {s : σ}

theorem toInt_flags (flags : Int32) : FLUSH_ALL.toInt flags.toInt = flags.toInt := by
  have hlo := Int32.le_toInt flags
  have hhi := Int32.toInt_lt flags
  exact Int.bmod_eq_of_le (by omega) (by omega)

/-- The replies of the server to a request of the client. -/
def Sends : RequestKind → Reply → Prop
  | .storage, r => r = .stored ∨ r = .notStored ∨ r = .existing ∨ r = .notFound
  | .touch, r => r = .touched ∨ r = .notFound
  | .delete, r => r = .deleted ∨ r = .notFound
  | .count, r =>
    r = .notFound ∨ (∃ digits, r = .number digits ∧ Decimal.valueOfDigits 0 digits.1 < 2 ^ 63) ∨
      ∃ text, r = .clientError text ∧ LF ∉ text

theorem exists_stored (store : List UInt8 → List UInt8 → Int → Int → σ → OpResult × σ)
    (cls : CommandClass) (key value : List UInt8) (flags : Int32) (expire : Int64) (noreply : Bool)
    (hreadable : IsStored (store key value flags.toInt expire.toInt s).1) :
    ∃ r, Sends .storage r ∧
      StorageCommand.execute store (storage cls key value flags expire noreply) s =
        reply noreply r.line (coded noreply (store key value flags.toInt expire.toInt s)).2 ∧
      (coded noreply (store key value flags.toInt expire.toInt s)).1 =
        answered noreply r.answer := by
  simp only [StorageCommand.execute, storage, toInt_flags, coded]
  rcases hreadable with hstored | hnot
  · rw [hstored]
    exact ⟨.stored, by simp [Sends], rfl, rfl⟩
  · rw [hnot]
    exact ⟨.notStored, by simp [Sends], rfl, rfl⟩

theorem exists_counted
    (hprint : ∀ value, 0 ≤ value → services.utils.longToStrDirect value = Decimal.toString value)
    (count : List UInt8 → Int → σ → Counted × σ) (cls : CommandClass) (key : List UInt8)
    (value : Int) (noreply : Bool) {item : Record}
    (hreadable : ReadableCount item (count key value s).1) :
    ∃ r, Sends .count r ∧
      INCR.execute services.utils count { cls, key, value, noreply } s =
        reply noreply r.line (counted noreply (count key value s)).2 ∧
      (counted noreply (count key value s)).1 = answered noreply r.answer := by
  simp only [INCR.execute, counted]
  cases hcount : (count key value s).1 with
  | value result =>
    rw [hcount] at hreadable
    rcases hreadable with ⟨hresult, hsmall⟩ | ⟨rfl, -⟩
    · obtain ⟨digits, hdigits, hne, hall, hvalue⟩ := Decimal.exists_digits result.natAbs
      have hstring : Decimal.toString result = digits := by
        rw [Decimal.toString, if_neg (Int.not_lt.mpr hresult), hdigits]
      have hfound : result ≠ -1 := by omega
      refine ⟨.number ⟨digits, hne, hall⟩, .inr (.inl ⟨_, rfl, ?_⟩), ?_, ?_⟩
      · simp only [hvalue]
        omega
      · simp only [ge_iff_le, hresult, if_true, hprint result hresult, hstring]
        rfl
      · simp only [hfound, if_false, Reply.answer, hvalue, Int.natAbs_of_nonneg hresult]
    · exact ⟨.notFound, by simp [Sends], rfl, rfl⟩
  | numberFormat =>
    exact ⟨.clientError (ascii "number format error"), by simp [Sends]; decide, rfl, rfl⟩
  | illegalArgument msg =>
    rw [hcount] at hreadable
    exact ⟨.clientError msg, .inr (.inr ⟨msg, rfl, hreadable⟩), rfl, rfl⟩

/-- The server answers a call that gets one line with what the store answers. -/
theorem exists_reply (size : Int)
    (hprint : ∀ value, 0 ≤ value → services.utils.longToStrDirect value = Decimal.toString value)
    {call : ClientCall} (hkind : call.operation.cls.requestKind = some kind)
    (hreadable : call.Readable P services.support size s) :
    ∃ r, Sends kind r ∧
      call.operation.execute services size s =
        reply call.noreply r.line (call.perform services.support s).2 ∧
      (call.perform services.support s).1 = answered call.noreply r.answer := by
  cases call with
  | get | gets | gat | gats => cases hkind
  | set | add | replace | append | prepend =>
    cases hkind
    exact exists_stored _ _ _ _ _ _ _ hreadable
  | cas key value flags expire noreply unique =>
    cases hkind
    simp only [Operation.execute, CAS.execute, operation, storage, toInt_flags, perform, coded]
    cases hcas : (services.support.cas key value flags.toInt expire.toInt unique.toInt s).1 with
    | EXISTS => exact ⟨.existing, by simp [Sends], rfl, rfl⟩
    | NOT_FOUND => exact ⟨.notFound, by simp [Sends], rfl, rfl⟩
    | NOT_STORED => exact ⟨.notStored, by simp [Sends], rfl, rfl⟩
    | STORED => exact ⟨.stored, by simp [Sends], rfl, rfl⟩
    | DELETED => exact absurd hcas hreadable
  | delete key noreply =>
    cases hkind
    simp only [Operation.execute, DELETE.execute, operation, perform, coded]
    rcases hreadable with hdeleted | hnot
    · simp only [hdeleted, if_true]
      exact ⟨.deleted, by simp [Sends], rfl, rfl⟩
    · simp only [hnot, reduceCtorEq, if_false]
      exact ⟨.notFound, by simp [Sends], rfl, rfl⟩
  | touch key expire noreply =>
    cases hkind
    have hanswer : -1 ≤ (services.support.touch key expire.toInt s).1 := hreadable
    simp only [Operation.execute, TOUCH.execute, operation, perform, touched, ge_iff_le]
    by_cases habsent : (services.support.touch key expire.toInt s).1 = -1
    · rw [habsent]
      exact ⟨.notFound, by simp [Sends], rfl, rfl⟩
    · have hfound : 0 ≤ (services.support.touch key expire.toInt s).1 := by omega
      simp only [hfound, habsent, if_true, if_false]
      exact ⟨.touched, by simp [Sends], rfl, rfl⟩
  | incr | decr =>
    cases hkind
    exact exists_counted hprint _ _ _ _ _ hreadable

end Lines

end ClientCall

end Memcarrot
