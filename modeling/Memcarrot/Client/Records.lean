import Memcarrot.Client.Responses
import Memcarrot.Segments.Infix

namespace Memcarrot

open Segments SimpleClient

/-- A record in a response, whose key is without space and line end. -/
structure Item where
  key : List UInt8
  flags : Int
  value : List UInt8
  cas : Option Int64
  key_bytes : SP ∉ key ∧ CR ∉ key ∧ LF ∉ key
  flags_range : 0 ≤ flags ∧ flags < 2 ^ 31
  length_value : value.length < 2 ^ 31

theorem number_some (value : Int) : number (some value) = .ok value := rfl

namespace Item

/-- The number of bytes, with the cas value behind it if there is one. -/
def sizeFields (item : Item) : List UInt8 :=
  match item.cas with
  | none => Decimal.toString item.value.length
  | some cas => Decimal.toString item.value.length ++ SP :: Decimal.toString cas.toInt

def header (item : Item) : List UInt8 :=
  ascii "VALUE" ++ SP :: (item.key ++ SP :: (Decimal.toString item.flags ++ SP :: item.sizeFields))

/-- The two lines of a record. -/
def lines (item : Item) : List UInt8 := item.header ++ CR :: LF :: (item.value ++ CRLF)

/-- What the server sends for the records that it has found. -/
def response (items : List Item) : List UInt8 := items.flatMap lines ++ END

def result (item : Item) : GetResult :=
  { key := item.key, value := item.value, flags := item.flags, cas := item.cas.map Int64.toInt }

/-- The record with the key that is left of its bytes in a string. -/
def decoded (P : Platform) (item : Item) : GetResult :=
  { item.result with key := P.encode (P.decode item.key) }

variable {P : Platform} {U : CacheUtils}

theorem ne_of_mem_toString {value : Int} {b : UInt8} (hb : isTokenByte b = false) :
    b ∉ Decimal.toString value := by
  intro hmem
  rw [Decimal.isTokenByte_toString hmem] at hb
  cases hb

theorem CR_not_mem_header (item : Item) : CR ∉ item.header := by
  have hnumber (value : Int) : CR ∉ Decimal.toString value := ne_of_mem_toString rfl
  have hsize : CR ∉ item.sizeFields := by
    unfold sizeFields
    split
    · exact hnumber _
    · simp only [List.mem_append, List.mem_cons, not_or]
      exact ⟨hnumber _, by decide, hnumber _⟩
  simp only [header, List.mem_append, List.mem_cons, not_or]
  exact ⟨by decide, by decide, item.key_bytes.2.1, by decide, hnumber _, by decide, hsize⟩

/-- The search for the end of the header finds it. -/
theorem searchLoop_eq {buf : ByteBuffer} {front back : List UInt8} (hfront : CR ∉ front) :
    ∀ skipped, buf.remaining = skipped ++ (front ++ CR :: LF :: back) →
      searchLoop buf (front.length + back.length + 2) (buf.position + skipped.length) =
        .ok (buf.position + skipped.length + front.length + 1) := by
  induction front with
  | nil =>
    intro skipped h
    have hCR : buf.remaining[skipped.length]? = some CR := by simp [h]
    have hLF : buf.remaining[skipped.length + 1]? = some LF := by simp [h]
    simp only [searchLoop, List.length_nil, Nat.zero_add, ByteBuffer.getAt_position hCR,
      Nat.add_assoc, ByteBuffer.getAt_position hLF, onBuffer_ok, ok_bind]
    rfl
  | cons x front ih =>
    intro skipped h
    rw [List.mem_cons, not_or] at hfront
    have hx : buf.remaining[skipped.length]? = some x := by simp [h]
    obtain ⟨y, hy⟩ : ∃ y, buf.remaining[skipped.length + 1]? = some y := by
      cases front with
      | nil => exact ⟨CR, by simp [h]⟩
      | cons y front => exact ⟨y, by simp [h]⟩
    have hrest := ih hfront.2 (skipped ++ [x]) (by simpa using h)
    rw [List.length_append, List.length_singleton] at hrest
    have hfuel : (x :: front).length + back.length + 2 = front.length + back.length + 1 + 2 := by
      simp only [List.length_cons]
      omega
    rw [hfuel, searchLoop, ByteBuffer.getAt_position hx, Nat.add_assoc buf.position,
      ByteBuffer.getAt_position hy]
    simp only [onBuffer_ok, ok_bind]
    rw [if_neg fun h => hfront.1 h.1.symm, hrest, List.length_cons]
    simp only [Except.ok.injEq]
    omega

/-- The header is split into its fields again. -/
theorem split_header (item : Item) : (P.decode item.header).split =
    ["VALUE".toList, P.decode item.key, P.decode (Decimal.toString item.flags)] ++
      P.decode (Decimal.toString item.value.length) ::
        item.cas.toList.map fun cas => P.decode (Decimal.toString cas.toInt) := by
  have hspace (front back : List UInt8) :
      P.decode (front ++ SP :: back) = P.decode front ++ ' ' :: P.decode back :=
    P.decode_ascii front SP back (by decide)
  have hVALUE : P.decode (ascii "VALUE") = "VALUE".toList :=
    (Platform.decode_eq_map (by decide +kernel)).trans (by decide)
  have hkey : ' ' ∉ P.decode item.key :=
    Platform.asciiChar_not_mem (b := SP) (by decide) item.key_bytes.1
  have hnumber (value : Int) :
      ' ' ∉ P.decode (Decimal.toString value) ∧ P.decode (Decimal.toString value) ≠ [] := by
    refine ⟨Platform.asciiChar_not_mem (b := SP) (by decide) (ne_of_mem_toString rfl), fun h => ?_⟩
    have hread := Platform.parseSigned_toString (P := P) value
    rw [h] at hread
    cases hread
  obtain ⟨hflags, -⟩ := hnumber item.flags
  obtain ⟨hsize, hne⟩ := hnumber item.value.length
  unfold header sizeFields
  cases item.cas with
  | none =>
    have hsplit := Text.split_intercalate
      ["VALUE".toList, P.decode item.key, P.decode (Decimal.toString item.flags)]
      (P.decode (Decimal.toString item.value.length)) (by simp [hkey, hflags, hsize]) hne
    simp only [hspace, hVALUE]
    simpa [List.intercalate] using hsplit
  | some cas =>
    obtain ⟨hcas, hne⟩ := hnumber cas.toInt
    have hsplit := Text.split_intercalate
      ["VALUE".toList, P.decode item.key, P.decode (Decimal.toString item.flags),
        P.decode (Decimal.toString item.value.length)]
      (P.decode (Decimal.toString cas.toInt)) (by simp [hkey, hflags, hsize, hcas]) hne
    simp only [hspace, hVALUE]
    simpa [List.intercalate] using hsplit

theorem length_header (item : Item) : 7 ≤ item.header.length := by
  have hVALUE : (ascii "VALUE").length = 5 := rfl
  simp only [header, List.length_append, List.length_cons, hVALUE]
  omega

/-- The fields that every header has are read back. -/
theorem fields_header (item : Item) :
    element (P.decode item.header).split 1 = .ok (P.decode item.key) ∧
      element (P.decode item.header).split 2 = .ok (P.decode (Decimal.toString item.flags)) ∧
      element (P.decode item.header).split 3 =
        .ok (P.decode (Decimal.toString item.value.length)) := by
  rw [split_header]
  exact ⟨rfl, rfl, rfl⟩

/-- The cas value is read back if the header has one. -/
theorem cas_header (item : Item) {α : Type} (k : Option Int → Except ClientException α) :
    (if (P.decode item.header).split.length = 5 then do
        let cas ← some <$> number (P.parseLong (← element (P.decode item.header).split 4))
        k cas
      else do
        let cas ← pure none
        k cas) = k (item.cas.map Int64.toInt) := by
  rw [split_header]
  cases item.cas with
  | none => rfl
  | some cas =>
    have hparse : P.parseLong (P.decode (Decimal.toString cas.toInt)) = some cas.toInt :=
      Platform.parseLong_toString cas.le_toInt cas.toInt_lt
    show (some <$> number (P.parseLong (P.decode (Decimal.toString cas.toInt)))) >>= k = _
    rw [hparse]
    rfl

/-- The lines of a record are read, up to the key. -/
theorem parseLine_lines {buf : ByteBuffer} {item : Item} {rest : List UInt8}
    (h : buf.remaining = item.lines ++ rest) :
    ∃ next, parseLine P U buf = .ok (some (item.decoded P), next) ∧ next.remaining = rest := by
  have hremaining : buf.remaining =
      item.header ++ CR :: LF :: (item.value ++ CR :: LF :: rest) := by simp [h, lines, CRLF]
  have hlimit : buf.limit - buf.position =
      item.header.length + (item.value ++ CR :: LF :: rest).length + 2 := by
    rw [← ByteBuffer.length_remaining, hremaining]
    simp only [List.length_append, List.length_cons]
    omega
  have hheader := item.length_header
  have hsearch := searchLoop_eq item.CR_not_mem_header [] hremaining
  simp only [List.length_nil, Nat.add_zero] at hsearch
  obtain ⟨bufHeader, hgetHeader, hremaining⟩ := ByteBuffer.getBytes_eq hremaining
  obtain ⟨bufCR, hgetCR, hremaining⟩ := ByteBuffer.getByte_eq hremaining
  obtain ⟨bufLF, hgetLF, hremaining⟩ := ByteBuffer.getByte_eq hremaining
  obtain ⟨bufValue, hgetValue, hremaining⟩ := ByteBuffer.getBytes_eq hremaining
  obtain ⟨bufCR', hgetCR', hremaining⟩ := ByteBuffer.getByte_eq hremaining
  obtain ⟨bufLF', hgetLF', hremaining⟩ := ByteBuffer.getByte_eq hremaining
  refine ⟨bufLF', ?_, hremaining⟩
  have hflags : P.parseInt (P.decode (Decimal.toString item.flags)) = some item.flags :=
    Platform.parseInt_toString (by have := item.flags_range; omega) item.flags_range.2
  have hsize : P.parseInt (P.decode (Decimal.toString item.value.length)) =
      some (item.value.length : Int) :=
    Platform.parseInt_toString (by omega) (by have := item.length_value; omega)
  have hcount : buf.position + item.header.length + 1 + 1 - buf.position - 2 =
      item.header.length := by omega
  simp only [parseLine, hlimit]
  rw [if_neg (by omega), hsearch]
  simp only [ok_bind]
  rw [if_neg (by omega), hcount, hgetHeader]
  obtain ⟨hkey, hflagsField, hsizeField⟩ := item.fields_header (P := P)
  have hnegative : ¬ ((item.value.length : Int) < 0) := by omega
  simp only [onBuffer_ok, ok_bind, hkey, hflagsField, hflags, hsizeField, hsize, number_some,
    hgetCR, hgetLF, if_neg hnegative, Int.toNat_natCast, hgetValue, hgetCR', hgetLF']
  exact item.cas_header fun cas => .ok (some { item.decoded P with cas }, bufLF')

theorem atEnd_iff {buf : ByteBuffer} {bytes : List UInt8} (h : buf.remaining.take 5 = bytes)
    (hlength : bytes.length = 5) : atEnd U buf = true ↔ bytes = END := by
  have htake : buf.remaining.take END.length = bytes := h
  rw [atEnd, htake, decide_eq_true_eq]
  exact U.compareTo_eq_zero_iff _ _ hlength

/-- The records up to END are read, up to their keys. -/
theorem parseLines_response {items : List Item} {buf : ByteBuffer}
    (h : buf.remaining = response items) :
    ∃ next, parseLines P U buf = .ok (items.map (decoded P), next) := by
  induction items generalizing buf with
  | nil =>
    have hremaining : buf.remaining = END := h
    have hlimit : buf.limit - buf.position = 5 := by
      rw [← ByteBuffer.length_remaining, hremaining]
      rfl
    have hend : atEnd U buf = true := (atEnd_iff (by rw [hremaining]; rfl) rfl).mpr rfl
    have hline : parseLine P U buf = .ok (none, buf) := by
      simp only [parseLine, hlimit, if_true, hend]
      rfl
    exact ⟨buf, parseLines_end hline⟩
  | cons item items ih =>
    have hlines : buf.remaining = item.lines ++ response items := by
      rw [h, response, response, List.flatMap_cons, List.append_assoc]
    obtain ⟨next, hline, hrest⟩ := parseLine_lines (P := P) (U := U) hlines
    obtain ⟨final, hfinal⟩ := ih hrest
    refine ⟨final, ?_⟩
    rw [parseLines_next hline, hfinal]
    rfl

theorem LF_not_mem_header (item : Item) : LF ∉ item.header := by
  have hnumber (value : Int) : LF ∉ Decimal.toString value := by
    intro hmem
    rcases Decimal.eq_minus_or_isDigit hmem with h | h
    · exact absurd h (by decide)
    · exact absurd h (by decide)
  have hsize : LF ∉ item.sizeFields := by
    unfold sizeFields
    split
    · exact hnumber _
    · simp only [List.mem_append, List.mem_cons, not_or]
      exact ⟨hnumber _, by decide, hnumber _⟩
  simp only [header, List.mem_append, List.mem_cons, not_or]
  exact ⟨by decide, by decide, item.key_bytes.2.2, by decide, hnumber _, by decide, hsize⟩

/-- A header ends with a digit. -/
theorem header_eq_append (item : Item) :
    ∃ front b, item.header = front ++ [b] ∧ (b = Decimal.MINUS ∨ Decimal.isDigit b = true) := by
  have hnumber (value : Int) : ∃ front b, Decimal.toString value = front ++ [b] ∧
      (b = Decimal.MINUS ∨ Decimal.isDigit b = true) := by
    obtain ⟨front, b, hvalue⟩ :=
      (List.eq_nil_or_concat' _).resolve_left (Decimal.toString_ne_nil value)
    exact ⟨front, b, hvalue, Decimal.eq_minus_or_isDigit (by rw [hvalue]; simp)⟩
  have hsize : ∃ front b, item.sizeFields = front ++ [b] ∧
      (b = Decimal.MINUS ∨ Decimal.isDigit b = true) := by
    unfold sizeFields
    split
    · exact hnumber _
    · obtain ⟨front, b, hvalue, hb⟩ := hnumber ‹Int64›.toInt
      exact ⟨_ ++ SP :: front, b, by rw [hvalue, List.append_assoc]; rfl, hb⟩
  obtain ⟨front, b, hvalue, hb⟩ := hsize
  refine ⟨ascii "VALUE" ++ SP :: (item.key ++ SP :: (Decimal.toString item.flags ++ SP :: front)), b,
    ?_, hb⟩
  simp only [header, hvalue, List.append_assoc, List.cons_append]

theorem prefix_append_cases {received front back : List UInt8} (h : received <+: front ++ back) :
    received <+: front ∨ ∃ rest, received = front ++ rest ∧ rest <+: back := by
  rcases List.prefix_or_prefix_of_prefix h (List.prefix_append front back) with hfirst | hlater
  · exact .inl hfirst
  · obtain ⟨rest, rfl⟩ := hlater
    exact .inr ⟨rest, rfl, (List.prefix_append_right_inj front).mp h⟩

/-- What is received of one record ends with END only where its data or the line end behind it
does. -/
theorem end_infix_of_front {item : Item} {received : List UInt8} (hfront : received <+: item.lines)
    (hend : END <:+ received) : END <:+: item.value ++ CRLF := by
  have hreached : ¬ received <+: item.header ++ [CR] := by
    intro hearly
    have hLF : LF ∈ item.header ++ [CR] := hearly.subset (hend.subset (by decide))
    rcases List.mem_append.mp hLF with h | h
    · exact item.LF_not_mem_header h
    · exact absurd h (by decide)
  have hlines : item.lines = item.header ++ [CR] ++ LF :: (item.value ++ CRLF) := by simp [lines]
  rw [hlines] at hfront
  obtain ⟨rest, rfl, hrest⟩ := (prefix_append_cases hfront).resolve_left hreached
  cases rest with
  | nil => exact absurd (by simp) hreached
  | cons b rest =>
    obtain ⟨rfl, hvalue⟩ := List.cons_prefix_cons.mp hrest
    by_cases hnil : rest = []
    · subst hnil
      obtain ⟨front, digit, hheader, hdigit⟩ := item.header_eq_append
      obtain ⟨start, hstart⟩ := hend
      have hword : start ++ ascii "EN" ++ [0x44] ++ CRLF = front ++ [digit] ++ CRLF := by
        have hend : ascii "EN" ++ ([0x44] ++ CRLF) = END := rfl
        rw [← hheader, List.append_assoc, List.append_assoc, hend]
        simpa [CRLF] using hstart
      obtain ⟨-, hletter⟩ := List.append_inj' (List.append_cancel_right hword) rfl
      cases hletter
      rcases hdigit with h | h
      · exact absurd h (by decide)
      · exact absurd h (by decide)
    · have hlater : END <:+ rest :=
        suffix_of_suffix_append_cons (ascii "END\r") (by decide) hnil hend
      exact hlater.isInfix.trans hvalue.isInfix

/-- A response that is cut ends with END only where the data of a record or the line end behind it
does. -/
theorem end_infix_of_response {items : List Item} {received : List UInt8}
    (hfront : received <+: response items) (hne : received ≠ response items)
    (hend : END <:+ received) : ∃ item ∈ items, END <:+: item.value ++ CRLF := by
  induction items generalizing received with
  | nil =>
    have hlonger := hend.length_le
    exact absurd (hfront.eq_of_length_le hlonger) hne
  | cons item items ih =>
    have hlines : response (item :: items) = item.lines ++ response items := by
      rw [response, response, List.flatMap_cons, List.append_assoc]
    rw [hlines] at hfront hne
    rcases prefix_append_cases hfront with hfirst | ⟨rest, rfl, hrest⟩
    · exact ⟨item, List.mem_cons_self, end_infix_of_front hfirst hend⟩
    · by_cases hnil : rest = []
      · subst hnil
        exact ⟨item, List.mem_cons_self, end_infix_of_front (by simp) hend⟩
      · have hfront : item.lines = item.header ++ CR :: LF :: item.value ++ [CR] ++ [LF] := by
          simp [lines, CRLF]
        rw [hfront, List.append_assoc _ [LF]] at hend
        have hlater : END <:+ rest :=
          suffix_of_suffix_append_cons (ascii "END\r") (by decide) hnil hend
        obtain ⟨found, hmem, hinside⟩ := ih hrest (fun h => hne (by rw [h])) hlater
        exact ⟨found, List.mem_cons_of_mem _ hmem, hinside⟩

/-- Where the data of a record has END in it, a response can be cut behind it. -/
theorem exists_prefix_of_infix {items : List Item} {item : Item} (hmem : item ∈ items)
    (hinside : END <:+: item.value ++ CRLF) :
    ∃ received, received <+: response items ∧ received ≠ response items ∧ END <:+ received := by
  obtain ⟨before, after, rfl⟩ := List.append_of_mem hmem
  obtain ⟨front, back, hvalue⟩ := hinside
  have hresponse : response (before ++ item :: after) =
      before.flatMap lines ++ item.header ++ CRLF ++ front ++ END ++ (back ++ response after) := by
    have hlines : item.lines = item.header ++ CRLF ++ (item.value ++ CRLF) := by
      simp [lines, CRLF]
    rw [response, List.flatMap_append, List.flatMap_cons, hlines, ← hvalue, response]
    simp only [List.append_assoc]
  refine ⟨before.flatMap lines ++ item.header ++ CRLF ++ front ++ END, ?_, ?_,
    List.suffix_append ..⟩
  · rw [hresponse]
    exact List.prefix_append ..
  · rw [hresponse]
    intro heq
    have hnil : back ++ response after = [] := List.self_eq_append_right.mp heq
    simp [response, END, ascii] at hnil

section Received

variable {received : List UInt8}

theorem end_suffix_iff :
    END <:+ received ↔ received.drop (received.length - 5) = END := by
  rw [List.suffix_iff_eq_drop]
  exact eq_comm

theorem getRetrievalResponse_five (cas : Bool) (stale : List UInt8) (hfive : received.length = 5) :
    getRetrievalResponse P U cas (.received received stale) =
      if received = END then .ok (some [], (ByteBuffer.received received stale).flip)
      else do
        let buf ← onBuffer ((ByteBuffer.received received stale).flip.setPosition 5)
        return (none, buf) := by
  have hposition : (ByteBuffer.received received stale).position = 5 := hfive
  have hflip : (ByteBuffer.received received stale).flip.remaining.take 5 = received := by
    rw [ByteBuffer.remaining_flip_received, ← hfive, List.take_length]
  simp only [getRetrievalResponse, hposition, atEnd_iff hflip hfive]
  rw [if_neg (by decide), if_pos trivial]
  split_ifs with hend
  · rfl
  · rfl

theorem getRetrievalResponse_long (cas : Bool) (stale : List UInt8) (hlong : 5 < received.length) :
    getRetrievalResponse P U cas (.received received stale) =
      if END <:+ received then do
        let (result, buf) ← parseLines P U (ByteBuffer.received received stale).flip
        return (some result, buf)
      else .ok (none, .received received stale) := by
  have hposition : (ByteBuffer.received received stale).position = received.length := rfl
  obtain ⟨buf, hback, hremaining, hforth⟩ :=
    ByteBuffer.setPosition_received received stale (Nat.sub_le received.length 5)
  have hfive : (received.drop (received.length - 5)).length = 5 := by
    rw [List.length_drop]
    omega
  have htake : buf.remaining.take 5 = received.drop (received.length - 5) := by
    rw [hremaining]
    exact List.take_left' hfive
  have hend : atEnd U buf = true ↔ END <:+ received :=
    (atEnd_iff htake hfive).trans end_suffix_iff.symm
  simp only [getRetrievalResponse, hposition, hback, hforth, onBuffer_ok, ok_bind]
  rw [if_neg (by omega), if_neg (by omega)]
  by_cases hcomplete : END <:+ received
  · rw [if_pos hcomplete, if_neg (by simp [hend.mpr hcomplete])]
  · rw [if_neg hcomplete, if_pos (by simpa using fun h => hcomplete (hend.mp h))]
    rfl

/-- Nothing is returned before END is at the end of what was received. -/
theorem getRetrievalResponse_eq_none (cas : Bool) (stale : List UInt8)
    (hend : ¬ END <:+ received) : ∃ buf,
      getRetrievalResponse P U cas (.received received stale) = .ok (none, buf) ∧
        buf.position = received.length := by
  rcases Nat.lt_trichotomy received.length 5 with hshort | hfive | hlong
  · refine ⟨.received received stale, ?_, rfl⟩
    have hposition : (ByteBuffer.received received stale).position = received.length := rfl
    simp only [getRetrievalResponse, hposition]
    rw [if_pos hshort]
    rfl
  · rw [getRetrievalResponse_five cas stale hfive, if_neg fun h => hend (by rw [h])]
    have hlimit : 5 ≤ (ByteBuffer.received received stale).flip.limit := hfive.ge
    rw [ByteBuffer.setPosition, dif_pos hlimit]
    exact ⟨_, rfl, hfive.symm⟩
  · rw [getRetrievalResponse_long cas stale hlong, if_neg hend]
    exact ⟨_, rfl, rfl⟩

/-- From then on the method returns or throws. -/
theorem getRetrievalResponse_ne_none (cas : Bool) (stale : List UInt8) (hend : END <:+ received)
    (buf : ByteBuffer) :
    getRetrievalResponse P U cas (.received received stale) ≠ .ok (none, buf) := by
  rcases Nat.eq_or_lt_of_le hend.length_le with hfive | hlong
  · have hEND : received = END := (hend.eq_of_length hfive).symm
    rw [getRetrievalResponse_five cas stale hfive.symm, if_pos hEND]
    simp
  · rw [getRetrievalResponse_long cas stale hlong, if_pos hend]
    cases parseLines P U (ByteBuffer.received received stale).flip with
    | ok parsed =>
      intro h
      cases h
    | error e =>
      intro h
      cases h

end Received

theorem eq_nil_of_length_response {items : List Item} (h : (response items).length = 5) :
    items = [] := by
  cases items with
  | nil => rfl
  | cons item items =>
    have hheader := item.length_header
    simp only [response, List.flatMap_cons, List.length_append, lines, List.length_cons] at h
    omega

/-- A complete response is decoded up to the keys. -/
theorem getRetrievalResponse_response (cas : Bool) (stale : List UInt8) (items : List Item) :
    ∃ buf, getRetrievalResponse P U cas (.received (response items) stale) =
      .ok (some (items.map (decoded P)), buf) := by
  have hend : END <:+ response items := List.suffix_append ..
  rcases Nat.eq_or_lt_of_le hend.length_le with hfive | hlong
  · obtain rfl := eq_nil_of_length_response hfive.symm
    exact ⟨_, getRetrievalResponse_five cas stale rfl⟩
  · obtain ⟨buf, hparse⟩ := parseLines_response (P := P) (U := U)
      (ByteBuffer.remaining_flip_received (response items) stale)
    rw [getRetrievalResponse_long cas stale hlong, if_pos hend, hparse]
    exact ⟨buf, rfl⟩

end Item

open Item

/-- The client waits for the rest of a response, from where it stopped, and returns the records once
all of it was received. -/
structure ExactRetrieval (P : Platform) (U : CacheUtils) (cas : Bool) (items : List Item) :
    Prop where
  incomplete : ∀ received stale, received <+: response items → received ≠ response items → ∃ buf,
    getRetrievalResponse P U cas (.received received stale) = .ok (none, buf) ∧
      buf.position = received.length
  complete : ∀ stale, ∃ buf,
    getRetrievalResponse P U cas (.received (response items) stale) =
      .ok (some (items.map result), buf)

/-- A response is decoded exactly unless END stands in the data of a record or a key is not a string
of the charset. -/
theorem exactRetrieval_iff (P : Platform) (U : CacheUtils) (cas : Bool) (items : List Item) :
    ExactRetrieval P U cas items ↔ ∀ item ∈ items,
      ¬ END <:+: item.value ++ CRLF ∧ P.encode (P.decode item.key) = item.key := by
  constructor
  · intro h item hmem
    refine ⟨fun hinside => ?_, ?_⟩
    · obtain ⟨received, hfront, hne, hend⟩ := exists_prefix_of_infix hmem hinside
      obtain ⟨buf, hnone, -⟩ := h.incomplete received [] hfront hne
      exact getRetrievalResponse_ne_none cas [] hend buf hnone
    · obtain ⟨buf, hcomplete⟩ := h.complete []
      obtain ⟨buf', hdecoded⟩ := getRetrievalResponse_response (P := P) (U := U) cas [] items
      rw [hdecoded] at hcomplete
      have hmap : items.map (decoded P) = items.map result :=
        Option.some.inj (congrArg Prod.fst (Except.ok.inj hcomplete))
      have hsame : item.decoded P = item.result := List.map_inj_left.mp hmap item hmem
      exact congrArg GetResult.key hsame
  · intro h
    refine ⟨fun received stale hfront hne => getRetrievalResponse_eq_none cas stale fun hend => ?_,
      fun stale => ?_⟩
    · obtain ⟨item, hmem, hinside⟩ := end_infix_of_response hfront hne hend
      exact (h item hmem).1 hinside
    · have hmap : items.map (decoded P) = items.map result :=
        List.map_congr_left fun item hmem => by rw [decoded, (h item hmem).2]; rfl
      rw [← hmap]
      exact getRetrievalResponse_response cas stale items

section Sent

variable {σ : Type} {fetch : List UInt8 → σ → Record × σ}
  {write : Record → List UInt8 → List UInt8} {outBufferSize : Int}

theorem RetrievalCommand.eq_write_of_round {key bytes : List UInt8} {outSize : Nat} {s s' : σ}
    (h : round fetch write outBufferSize key outSize s = (.written bytes, s')) :
    ∃ r, r.value ≠ none ∧ bytes = write r key := by
  simp only [round] at h
  split_ifs at h with hnone hsize
  · cases h
  · cases h
  · cases h
    exact ⟨_, hnone, rfl⟩

/-- What the server sends to a retrieval request, all chunks of it together, is the response for a
list of records, if the store writes the lines of records. -/
theorem RetrievalCommand.exists_items {keys : List (List UInt8)} {out bytes : List UInt8} {s : σ}
    (hwrite : ∀ key ∈ keys, ∀ r, r.value ≠ none → ∃ item : Item, write r key = item.lines)
    (h : (executeLoop fetch write outBufferSize keys out s).outcome = .response bytes) :
    ∃ items, (executeLoop fetch write outBufferSize keys out s).chunks.flatten ++ bytes =
      out ++ response items := by
  induction keys generalizing out s with
  | nil =>
    obtain rfl := Outcome.response.inj h
    exact ⟨[], rfl⟩
  | cons key keys ih =>
    have ih {out s} := @ih out s fun key hkey => hwrite key (List.mem_cons_of_mem _ hkey)
    have hlines {bytes : List UInt8} {outSize : Nat} {s s' : σ}
        (hround : round fetch write outBufferSize key outSize s = (.written bytes, s')) :
        ∃ item : Item, bytes = item.lines := by
      obtain ⟨r, hvalue, rfl⟩ := eq_write_of_round hround
      exact hwrite key List.mem_cons_self r hvalue
    rw [executeLoop] at h ⊢
    cases hround : round fetch write outBufferSize key out.length s with
    | mk outcome next =>
      rw [hround] at h
      cases outcome with
      | absent => exact ih h
      | written line =>
        obtain ⟨item, rfl⟩ := hlines hround
        obtain ⟨items, hitems⟩ := ih h
        refine ⟨item :: items, hitems.trans ?_⟩
        simp only [response, List.flatMap_cons, List.append_assoc]
      | full =>
        by_cases hout : out.length > 0
        · simp only [if_pos hout] at h ⊢
          cases hagain : round fetch write outBufferSize key 0 next with
          | mk outcome after =>
            rw [hagain] at h
            cases outcome with
            | absent =>
              obtain ⟨items, hitems⟩ := ih h
              refine ⟨items, ?_⟩
              rw [List.flatten_cons, List.append_assoc, hitems, List.nil_append]
            | written line =>
              obtain ⟨item, rfl⟩ := hlines hagain
              obtain ⟨items, hitems⟩ := ih h
              refine ⟨item :: items, ?_⟩
              rw [List.flatten_cons, List.append_assoc, hitems]
              simp only [response, List.flatMap_cons, List.append_assoc]
            | full => cases h
        · simp only [if_neg hout] at h
          cases h

end Sent

/-- Data that is END itself is taken for the end of the response. -/
theorem not_exactRetrieval_end :
    ¬ ∀ (P : Platform) (U : CacheUtils) (cas : Bool) (items : List Item),
      ExactRetrieval P U cas items := by
  intro h
  let item : Item :=
    { key := ascii "k", flags := 0, value := END, cas := none
      key_bytes := by decide, flags_range := by decide, length_value := by decide }
  obtain ⟨buf, hnone, -⟩ := (h .iso88591 decimalUtils false [item]).incomplete
    (ascii "VALUE k 0 5\r\nEND\r\n") [] (by decide +kernel) (by decide +kernel)
  cases hnone

end Memcarrot
