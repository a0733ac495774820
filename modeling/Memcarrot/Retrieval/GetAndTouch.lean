import Memcarrot.Retrieval.Chunks
import Memcarrot.Support.ListStore

namespace Memcarrot

namespace RetrievalCommand

variable {σ : Type} {touch : List UInt8 → Int → σ → Record × σ} {find : List UInt8 → σ → Record}
  {write : Record → List UInt8 → List UInt8} {record record' : List UInt8 → Record}
  {expires : Int → Prop} {outBufferSize exptime : Int} {key : List UInt8}
  {keys asked : List (List UInt8)} {out : List UInt8} {s : σ}

/-- What the store promises of get-and-touch, where `find` is the record of a key: the record is
returned, and its expiration is replaced. An exptime that expires the item at once, as a negative
one does, makes it absent. -/
structure Touches (touch : List UInt8 → Int → σ → Record × σ) (find : List UInt8 → σ → Record)
    (expires : Int → Prop) : Prop where
  answer : ∀ key exptime s, (touch key exptime s).1 = find key s
  other : ∀ {key k exptime s}, k ≠ key → find k (touch key exptime s).2 = find k s
  kept : ∀ {key exptime s}, ¬ expires exptime → find key (touch key exptime s).2 = find key s
  expired : ∀ {key exptime s}, expires exptime → (find key (touch key exptime s).2).value = none
  negative : ∀ {exptime}, exptime < 0 → expires exptime
  again : ∀ key exptime s, (touch key exptime (touch key exptime s).2).2 = (touch key exptime s).2

/-- The store after each key has been touched once. -/
def touched (touch : List UInt8 → Int → σ → Record × σ) (exptime : Int)
    (keys : List (List UInt8)) (s : σ) : σ :=
  keys.foldl (fun s key => (touch key exptime s).2) s

theorem found_congr (h : ∀ k ∈ keys, record k = record' k) :
    found write record keys = found write record' keys := by
  unfold found
  rw [List.filter_congr fun k hk => by rw [h k hk]]
  exact List.map_congr_left fun k hk => by rw [h k (List.mem_of_mem_filter hk)]

/-- Touching a key leaves what is found for the keys behind it. -/
theorem Touches.found_rest (h : Touches touch find expires) (hnodup : (key :: keys).Nodup) :
    found write (fun k => find k (touch key exptime s).2) keys =
      found write (fun k => find k s) keys :=
  found_congr fun _ hk => h.other fun heq => (List.nodup_cons.mp hnodup).1 (heq ▸ hk)

variable (write exptime s) in
theorem Touches.answers_eq (h : Touches touch find expires) (hnodup : keys.Nodup) :
    answers (fun key => touch key exptime) write keys s =
      (found write (fun k => find k s) keys, touched touch exptime keys s) := by
  induction keys generalizing s with
  | nil => rfl
  | cons key keys ih =>
    have hrest := ih (touch key exptime s).2 (List.nodup_cons.mp hnodup).2
    rw [h.found_rest hnodup] at hrest
    by_cases habsent : (find key s).value = none
    · rw [answers_absent (by rwa [h.answer]), hrest, found_absent habsent]
      rfl
    · rw [answers_found (by rwa [h.answer]), hrest, found_present habsent, h.answer]
      rfl

theorem Touches.unchanging (h : Touches touch find expires) (hexptime : ¬ expires exptime)
    (keys : List (List UInt8)) (s : σ) :
    Unchanging (fun key => touch key exptime) (fun k => find k s) keys s := by
  have hstep : ∀ k key s, find k (touch key exptime s).2 = find k s := by
    intro k key s
    by_cases hk : k = key
    · rw [hk, h.kept hexptime]
    · exact h.other hk
  have hfold : ∀ (asked : List (List UInt8)) (k : List UInt8) (s : σ),
      find k (asked.foldl (fun s key => (touch key exptime s).2) s) = find k s := by
    intro asked k s
    induction asked generalizing s with
    | nil => rfl
    | cons key asked ih => rw [List.foldl_cons, ih, hstep]
  intro asked key _ _
  rw [h.answer, hfold]

/-- With records that do not change and fit, a key that is asked for twice is touched as if it had
been asked for once. -/
theorem Touches.store_eq (h : Touches touch find expires) (hexptime : ¬ expires exptime)
    (hfits : ∀ k ∈ keys, (find k s).value ≠ none →
      ((write (find k s) k).length : Int) ≤ outBufferSize - 5) :
    (executeLoop (fun key => touch key exptime) write outBufferSize keys out s).store =
      touched touch exptime keys s := by
  induction keys generalizing out s with
  | nil => rfl
  | cons key keys ih =>
    have hsame : ∀ k, find k (touch key exptime s).2 = find k s := fun k =>
      (h.answer k exptime _).symm.trans
        (((h.unchanging hexptime [key, k] s).after List.mem_cons_self).fetch_eq
          (List.mem_cons_of_mem _ List.mem_cons_self))
    have hfitsRest : ∀ k ∈ keys, (find k (touch key exptime s).2).value ≠ none →
        ((write (find k (touch key exptime s).2) k).length : Int) ≤ outBufferSize - 5 := by
      intro k hk
      rw [hsame]
      exact hfits k (List.mem_cons_of_mem _ hk)
    have hanswer := h.answer key exptime s
    by_cases habsent : (find key s).value = none
    · rw [executeLoop_absent (by rwa [hanswer])]
      exact ih hfitsRest
    have hpresent : (touch key exptime s).1.value ≠ none := by rwa [hanswer]
    by_cases hsize : ((write (find key s) key).length : Int) ≤ outBufferSize - out.length - 5
    · rw [executeLoop_fits hpresent (by rwa [hanswer])]
      exact ih hfitsRest
    · have hlength := hfits key List.mem_cons_self habsent
      have hne : out ≠ [] := by
        rintro rfl
        rw [List.length_nil] at hsize
        omega
      have hagain : (touch key exptime (touch key exptime s).2).1 = (touch key exptime s).1 := by
        rw [h.answer, hsame, hanswer]
      have hfull : ((write (touch key exptime s).1 key).length : Int) >
          outBufferSize - out.length - 5 := by
        rw [hanswer]
        exact Int.not_le.mp hsize
      rw [executeLoop_again hpresent hfull hne hagain (by rwa [hanswer]), h.again]
      exact ih hfitsRest

/-- What a run sends. -/
def sent (executed : Executed σ) : List UInt8 :=
  executed.chunks.flatten ++
    match executed.outcome with
    | .response reply => reply
    | _ => []

theorem sent_cons (chunk : List UInt8) (executed : Executed σ) :
    sent { executed with chunks := chunk :: executed.chunks } = chunk ++ sent executed := by
  unfold sent
  rw [List.flatten_cons, List.append_assoc]

/-- A key that is asked for twice is lost when it expires at once. -/
theorem Touches.sent_full (h : Touches touch find expires) (hexptime : expires exptime)
    (hnodup : (key :: keys).Nodup) (hpresent : (find key s).value ≠ none)
    (hsize : ((write (find key s) key).length : Int) > outBufferSize - out.length - 5)
    (hne : out ≠ []) :
    ∃ s', (∀ k ∈ keys, find k s' = find k s) ∧
      sent (executeLoop (fun key => touch key exptime) write outBufferSize (key :: keys) out s) =
        out ++
          sent (executeLoop (fun key => touch key exptime) write outBufferSize keys [] s') := by
  have hexpired : (touch key exptime (touch key exptime s).2).1.value = none := by
    rw [h.answer]
    exact h.expired hexptime
  rw [executeLoop_full (by rwa [h.answer]) (by rwa [h.answer]) hne, executeLoop_absent hexpired]
  refine ⟨_, fun k hk => ?_, sent_cons out _⟩
  have hk' : k ≠ key := fun heq => (List.nodup_cons.mp hnodup).1 (heq ▸ hk)
  rw [h.other hk', h.other hk']

theorem sent_response (store : σ) (chunks : List (List UInt8)) (reply : List UInt8) :
    sent ⟨store, chunks, .response reply⟩ = chunks.flatten ++ reply := rfl

variable (write outBufferSize out s) in
/-- With an exptime that expires the items at once, at most what is found is sent, and less where
not everything fits into the buffer. -/
theorem Touches.length_sent (h : Touches touch find expires) (hexptime : expires exptime)
    (hnodup : keys.Nodup) :
    (sent (executeLoop (fun key => touch key exptime) write outBufferSize keys out s)).length ≤
        out.length + (found write (fun k => find k s) keys).flatten.length + 5 ∧
      ((out ≠ [] → (out.length : Int) ≤ outBufferSize - 5) →
        (outBufferSize - 5).toNat <
          out.length + (found write (fun k => find k s) keys).flatten.length →
        (sent (executeLoop (fun key => touch key exptime) write outBufferSize keys out s)).length <
          out.length + (found write (fun k => find k s) keys).flatten.length + 5) := by
  induction keys generalizing out s with
  | nil =>
    rw [executeLoop_nil, sent_response, List.flatten_nil, List.nil_append, List.length_append]
    refine ⟨Nat.add_le_add_right (Nat.le_add_right _ _) 5, fun hout hmore => ?_⟩
    have hpos : 0 < out.length := Nat.lt_of_le_of_lt (Nat.zero_le _) hmore
    have hlength := hout (List.ne_nil_of_length_pos hpos)
    simp only [found, List.filter_nil, List.map_nil, List.flatten_nil, List.length_nil] at hmore
    omega
  | cons key keys ih =>
    have hrest := (List.nodup_cons.mp hnodup).2
    have hanswer := h.answer key exptime s
    by_cases habsent : (find key s).value = none
    · rw [executeLoop_absent (by rwa [hanswer]), found_absent habsent, ← h.found_rest hnodup]
      exact ih out _ hrest
    have hpresent : (touch key exptime s).1.value ≠ none := by rwa [hanswer]
    rw [found_present habsent, List.flatten_cons, List.length_append]
    by_cases hsize : ((write (find key s) key).length : Int) ≤ outBufferSize - out.length - 5
    · obtain ⟨hle, hlt⟩ := ih (out ++ write (find key s) key) (touch key exptime s).2 hrest
      rw [h.found_rest hnodup, List.length_append] at hle hlt
      rw [executeLoop_fits hpresent (by rwa [hanswer]), hanswer]
      refine ⟨by omega, fun _ hmore => ?_⟩
      have hless := hlt (fun _ => by omega) (by omega)
      omega
    by_cases hne : out = []
    · have hlarge : ((write (touch key exptime s).1 key).length : Int) > outBufferSize - 5 := by
        rw [hne, List.length_nil] at hsize
        rw [hanswer]
        omega
      rw [hne, executeLoop_tooLarge hpresent hlarge]
      exact ⟨Nat.zero_le _, fun _ _ => Nat.succ_pos _⟩
    · -- the record that does not fit is lost
      obtain ⟨s', hsame, hsent⟩ := h.sent_full hexptime hnodup habsent (Int.not_le.mp hsize) hne
      have hlength := (ih [] s' hrest).1
      rw [found_congr hsame, List.length_nil] at hlength
      rw [hsent, List.length_append]
      refine ⟨by omega, fun hout _ => ?_⟩
      have hfits := hout hne
      omega

/-- The response has the records that are there at the start, and the store is as with any output
buffer that is large enough for all of them. -/
def ReturnsAll (services : Services σ) (find : List UInt8 → σ → Record) (outBufferSize : Int)
    (op : Operation) (s : σ) : Prop :=
  let bytes := (found (fun r key => services.support.write r key op.cls.isCAS)
    (fun k => find k s) op.keys).flatten
  let executed := op.execute services outBufferSize s
  (∃ reply, executed.outcome = .response reply ∧ executed.chunks.flatten ++ reply = bytes ++ END) ∧
    ∀ enough : Int, bytes.length ≤ enough - 5 →
      executed.store = (op.execute services enough s).store

/-- When everything fits into the buffer, each key is asked for once. -/
theorem Touches.executeLoop_enough (h : Touches touch find expires) (hnodup : keys.Nodup)
    (henough : found write (fun k => find k s) keys ≠ [] →
      ((found write (fun k => find k s) keys).flatten.length : Int) ≤ outBufferSize - 5) :
    executeLoop (fun key => touch key exptime) write outBufferSize keys [] s =
      ⟨touched touch exptime keys s, [],
        .response ((found write (fun k => find k s) keys).flatten ++ END)⟩ := by
  have hanswers := h.answers_eq write exptime s hnodup
  have hfit : AnswersFit (fun key => touch key exptime) write outBufferSize keys s := by
    unfold AnswersFit
    rwa [hanswers]
  rw [executeLoop_of_fits hfit, hanswers]

theorem Touches.executeLoop_kept (h : Touches touch find expires) (hexptime : ¬ expires exptime)
    (hfits : ∀ k ∈ keys, (find k s).value ≠ none →
      ((write (find k s) k).length : Int) ≤ outBufferSize - 5) (hsize : 5 ≤ outBufferSize) :
    ∃ reply, (executeLoop (fun key => touch key exptime) write outBufferSize keys [] s).outcome =
        .response reply ∧
      (executeLoop (fun key => touch key exptime) write outBufferSize keys [] s).chunks.flatten ++
        reply = (found write (fun k => find k s) keys).flatten ++ END := by
  obtain ⟨limit, hlimit⟩ := Int.eq_ofNat_of_zero_le (Int.sub_nonneg_of_le hsize)
  obtain ⟨hchunks, houtcome⟩ := executeLoop_unchanging write [] hlimit.symm
    (h.unchanging hexptime keys s) (fun _ hk => hk) hfits
  refine ⟨_, houtcome, ?_⟩
  rw [hchunks, ← List.append_assoc, Chunks.pack_flatten, List.nil_append]

theorem returnsAll_iff (h : Touches touch find expires) (services : Services σ) {op : Operation}
    (hexecute : ∀ outBufferSize, op.execute services outBufferSize s =
      executeLoop (fun key => touch key op.exptime)
        (fun r key => services.support.write r key op.cls.isCAS) outBufferSize op.keys [] s)
    (hnodup : op.keys.Nodup)
    (hfits : ∀ k ∈ op.keys, (find k s).value ≠ none →
      ((services.support.write (find k s) k op.cls.isCAS).length : Int) ≤ outBufferSize - 5) :
    ReturnsAll services find outBufferSize op s ↔
      (expires op.exptime →
        (found (fun r key => services.support.write r key op.cls.isCAS) (fun k => find k s)
          op.keys).flatten.length ≤ (outBufferSize - 5).toNat) := by
  unfold ReturnsAll
  simp only [hexecute]
  set write : Record → List UInt8 → List UInt8 :=
    fun r key => services.support.write r key op.cls.isCAS
  have hstore : ∀ enough : Int,
      ((found write (fun k => find k s) op.keys).flatten.length : Int) ≤ enough - 5 →
      (executeLoop (fun key => touch key op.exptime) write enough op.keys [] s).store =
        touched touch op.exptime op.keys s := by
    intro enough henough
    rw [h.executeLoop_enough hnodup fun _ => henough]
  have hlimit : found write (fun k => find k s) op.keys ≠ [] → 5 ≤ outBufferSize := by
    intro hne
    obtain ⟨block, hblock⟩ := List.exists_mem_of_ne_nil _ hne
    have hlength := length_le_of_mem_found hfits hblock
    omega
  by_cases hsmall : (found write (fun k => find k s) op.keys).flatten.length ≤
      (outBufferSize - 5).toNat
  · refine iff_of_true ?_ fun _ => hsmall
    rw [h.executeLoop_enough hnodup fun hne => by have := hlimit hne; omega]
    exact ⟨⟨_, rfl, rfl⟩, fun enough henough => (hstore enough henough).symm⟩
  have hne : found write (fun k => find k s) op.keys ≠ [] := by
    intro hnil
    rw [hnil] at hsmall
    exact hsmall (Nat.zero_le _)
  simp only [hsmall, imp_false]
  constructor
  · rintro ⟨⟨reply, houtcome, hbytes⟩, -⟩ hexptime
    have hless := (h.length_sent write outBufferSize [] s hexptime hnodup).2
      (fun hnil => absurd rfl hnil) (by rw [List.length_nil]; omega)
    rw [sent, houtcome, hbytes, List.length_append, List.length_nil,
      show END.length = 5 from rfl] at hless
    omega
  · intro hexptime
    refine ⟨h.executeLoop_kept hexptime hfits (hlimit hne), fun enough henough => ?_⟩
    rw [h.store_eq hexptime hfits, hstore enough henough]

end RetrievalCommand

open RetrievalCommand

/-- Get-and-touch is the same for every output buffer exactly when the exptime does not expire the
items at once, or all of the response fits into the buffer. -/
theorem get_and_touch_returns_all_iff {σ : Type} (services : Services σ)
    {find : List UInt8 → σ → Record} {expires : Int → Prop}
    (hgat : Touches services.support.gat find expires)
    (hgats : Touches services.support.gats find expires) {op : Operation}
    (hop : op.cls = .GAT ∨ op.cls = .GATS) (hnodup : op.keys.Nodup) {outBufferSize : Int} {s : σ}
    (hfits : ∀ k ∈ op.keys, (find k s).value ≠ none →
      ((services.support.write (find k s) k op.cls.isCAS).length : Int) ≤ outBufferSize - 5) :
    ReturnsAll services find outBufferSize op s ↔
      (expires op.exptime →
        (found (fun r key => services.support.write r key op.cls.isCAS) (fun k => find k s)
          op.keys).flatten.length ≤ (outBufferSize - 5).toNat) := by
  have hretrieval : op.cls.isRetrieval = true := by
    rcases hop with hcls | hcls <;> rw [hcls] <;> rfl
  rcases hop with hcls | hcls
  · have hfetch : op.fetch services.support = fun key => services.support.gat key op.exptime := by
      unfold Operation.fetch
      rw [hcls]
    refine returnsAll_iff hgat services (fun size => ?_) hnodup hfits
    rw [Operation.execute_retrieval services size hretrieval, hfetch]
  · have hfetch : op.fetch services.support = fun key => services.support.gats key op.exptime := by
      unfold Operation.fetch
      rw [hcls]
    refine returnsAll_iff hgats services (fun size => ?_) hnodup hfits
    rw [Operation.execute_retrieval services size hretrieval, hfetch]

theorem ListStore.touch_touches : Touches ListStore.touch ListStore.find (· < 0) where
  answer _ _ _ := rfl
  other := by
    intro key k exptime s hk
    unfold touch
    split_ifs
    · rw [find_remove, if_neg hk]
    · rfl
  kept := by
    intro key exptime s hexptime
    rw [touch, if_neg hexptime]
  expired := by
    intro key exptime s hexptime
    rw [touch, if_pos hexptime, find_remove, if_pos rfl]
  negative h := h
  again := by
    intro key exptime s
    unfold touch
    split_ifs
    · simp [remove, List.filter_filter]
    · rfl

/-- Two records of 16 bytes, in a buffer with space for one of them. -/
theorem get_and_touch_returns_all_later :
    ReturnsAll expiringServices ListStore.find 25
      { cls := .GAT, keys := [ascii "a", ascii "b"], exptime := 60 }
      { items := [(ascii "a", { value := some (ascii "x") }),
          (ascii "b", { value := some (ascii "y") })] } :=
  (get_and_touch_returns_all_iff expiringServices ListStore.touch_touches ListStore.touch_touches
    (.inl rfl) (by decide) (by decide)).mpr fun h => absurd h (by decide)

/-- The item at the end of the buffer expires before it is returned. -/
theorem not_get_and_touch_returns_all :
    ¬ ∀ (services : Services ListStore) (find : List UInt8 → ListStore → Record)
      (expires : Int → Prop), Touches services.support.gat find expires →
      Touches services.support.gats find expires →
      ∀ (op : Operation) (outBufferSize : Int) (s : ListStore),
        (op.cls = .GAT ∨ op.cls = .GATS) → op.keys.Nodup →
        (∀ k ∈ op.keys, (find k s).value ≠ none →
          ((services.support.write (find k s) k op.cls.isCAS).length : Int) ≤ outBufferSize - 5) →
        ReturnsAll services find outBufferSize op s := by
  intro h
  obtain ⟨⟨reply, hreply, hbytes⟩, -⟩ := h expiringServices ListStore.find (· < 0)
    ListStore.touch_touches ListStore.touch_touches
    { cls := .GAT, keys := [ascii "a", ascii "b"], exptime := -1 } 25
    { items := [(ascii "a", { value := some (ascii "x") }),
        (ascii "b", { value := some (ascii "y") })] } (.inl rfl) (by decide) (by decide)
  cases hreply
  exact absurd hbytes (by decide)

end Memcarrot
