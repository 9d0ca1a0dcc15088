import PhotonDb.Page.SortedPage

/-! # Round trip of the sorted page

The builder writes exactly the spec's `layout` of the encoded entries, filling both
encoders to their last byte, whatever the page content held before. The reader recovers the
number of items from the first offset, every `item` slice is in range and is exactly one
encoded entry, so `get` and the iterator return the entries that were built.
-/

namespace PhotonDb.Page

set_option autoImplicit false

variable {K V : Type}

section Builder

variable [Codec K] [Codec V]

/-- The encoded entries, one item each. -/
def encodedItems (E : List (K × V)) : List Bytes := E.map entryBytes

@[simp] theorem length_encodedItems (E : List (K × V)) : (encodedItems E).length = E.length := by
  simp [encodedItems]

theorem withIter_counts (E : List (K × V)) (b : SortedPageBuilder K V) :
    E.foldl (fun (b : SortedPageBuilder K V) (k, v) =>
        { b with size := b.size + (encodeSize k + encodeSize v), numItems := b.numItems + 1 }) b =
      { b with size := b.size + ((encodedItems E).map List.length).sum,
               numItems := b.numItems + E.length } := by
  induction E generalizing b with
  | nil => simp [encodedItems]
  | cons e E ih =>
    rw [List.foldl_cons, ih]
    simp [encodedItems, Nat.add_assoc, Nat.add_comm 1]

theorem withIter_new (E : List (K × V)) :
    SortedPageBuilder.new.withIter E =
      ⟨some E, (layout (encodedItems E)).length, E.length⟩ := by
  simp [SortedPageBuilder.withIter, SortedPageBuilder.new, withIter_counts, length_layout]
  omega

theorem add_written (e : K × V) (doneO restO doneP restP : Bytes) (hO : 4 ≤ restO.length)
    (hP : (entryBytes e).length ≤ restP.length) :
    (⟨Encoder.written doneO restO, Encoder.written doneP restP⟩ : SortedPageBuf).add e.1 e.2 =
      some ⟨Encoder.written (doneO ++ leBytes 4 (doneO.length + restO.length + doneP.length))
          (restO.drop 4),
        Encoder.written (doneP ++ entryBytes e) (restP.drop (entryBytes e).length)⟩ := by
  have hWord : (leBytes 4 (doneO.length + restO.length + doneP.length)).length ≤
      restO.length := by simpa using hO
  simp [SortedPageBuf.add, Encoder.putU32, Encoder.putSlice_written _ _ _ hWord, encodeEntry_eq,
    Encoder.putSlice_written _ _ _ hP]

/-- Adding the entries to encoders that have written `doneO` and `doneP` writes the
offsets of the entries, counted from the start of the content, and then the entries. -/
theorem addAll_written (E : List (K × V)) (doneO restO doneP restP : Bytes)
    (hO : restO.length = 4 * E.length)
    (hP : restP.length = ((encodedItems E).map List.length).sum) :
    (⟨Encoder.written doneO restO, Encoder.written doneP restP⟩ : SortedPageBuf).addAll E =
      some ⟨Encoder.written (doneO ++ (entryOffsets (doneO.length + restO.length + doneP.length)
          ((encodedItems E).map List.length)).flatMap (leBytes 4)) [],
        Encoder.written (doneP ++ (encodedItems E).flatten) []⟩ := by
  induction E generalizing doneO restO doneP restP with
  | nil =>
    simp [encodedItems] at hO hP
    simp [SortedPageBuf.addAll, encodedItems, entryOffsets, hO, hP]
  | cons e E ih =>
    simp only [encodedItems, List.map_cons, List.sum_cons, List.length_cons] at hO hP
    obtain ⟨k, v⟩ := e
    rw [SortedPageBuf.addAll, List.foldlM_cons]
    simp only
    rw [add_written (k, v) _ _ _ _ (by omega) (by omega)]
    simp only [Option.bind_eq_bind, Option.some_bind]
    rw [← SortedPageBuf.addAll, ih _ _ _ _ (by rw [List.length_drop, hO]; omega)
      (by rw [List.length_drop, hP, Nat.add_sub_cancel_left]; rfl)]
    have hStart : (doneO ++ leBytes 4 (doneO.length + restO.length + doneP.length)).length +
        (restO.drop 4).length + (doneP ++ entryBytes (k, v)).length =
        doneO.length + restO.length + doneP.length + (entryBytes (k, v)).length := by
      simp only [List.length_append, length_leBytes, List.length_drop]; omega
    rw [hStart]
    simp [encodedItems, entryOffsets, List.append_assoc]

theorem new_addAll (E : List (K × V)) (content : Bytes)
    (h : content.length = (layout (encodedItems E)).length) :
    (SortedPageBuf.new content E.length >>= (·.addAll E)) =
      some ⟨Encoder.written ((offsetsOf (encodedItems E)).flatMap (leBytes 4)) [],
        Encoder.written (encodedItems E).flatten []⟩ := by
  rw [length_layout, length_encodedItems] at h
  have hTable : E.length * 4 ≤ content.length := by omega
  simp only [SortedPageBuf.new, hTable, if_true, Encoder.new_eq, Option.bind_eq_bind,
    Option.some_bind]
  rw [addAll_written E [] _ [] _ (by simp; omega) (by simp; omega)]
  simp [offsetsOf, Nat.mul_comm, Nat.min_eq_left hTable]

theorem build_withIter (E : List (K × V)) (content : Bytes)
    (h : content.length = (SortedPageBuilder.new.withIter E).size) :
    (SortedPageBuilder.new.withIter E).build content = some (layout (encodedItems E)) := by
  rw [withIter_new] at h ⊢
  simp only [SortedPageBuilder.build, h, if_true]
  rw [new_addAll E content h]
  simp [SortedPageBuf.content, layout]

end Builder

namespace SortedPageRef

/-- The page holding `items` in the spec's layout. -/
def ofItems (items : List Bytes) : SortedPageRef K V := ⟨layout items, offsetsOf items⟩

theorem new_layout (items : List Bytes) (h : (layout items).length < 2 ^ 32) :
    SortedPageRef.new (layout items) = some (ofItems items : SortedPageRef K V) := by
  cases items with
  | nil => rfl
  | cons item items =>
    obtain ⟨dec, hSize⟩ := getU32_layout _ h (List.cons_ne_nil item items)
    have hNonempty : (layout (item :: items)).isEmpty = false := rfl
    simp only [SortedPageRef.new, hNonempty, hSize, Bool.false_eq_true, if_false,
      Option.map_some', Option.bind_eq_bind, Option.some_bind,
      Nat.mul_div_cancel_left _ (show 0 < 4 by decide), getU32s_layout _ h]
    rfl

@[simp] theorem len_ofItems (items : List Bytes) :
    (ofItems items : SortedPageRef K V).len = items.length := by
  simp [ofItems, len]

theorem item_ofItems (items : List Bytes) (i : Nat) (h : i < items.length) :
    (ofItems items : SortedPageRef K V).item i = some (some items[i]) := by
  have hi : i < (offsetsOf items).length := by simpa using h
  have hNext := nextOffset_eq items i h
  have hDrop := drop_layout_offsetsOf items i h
  have hEnd := offset_add_length_le items i h
  rw [List.get_eq_getElem] at hNext hDrop hEnd
  simp only [item, itemOffset, ofItems, List.getElem?_eq_getElem hi, hNext]
  simp [hEnd, hDrop]

theorem item_ofItems_of_le (items : List Bytes) (i : Nat) (h : items.length ≤ i) :
    (ofItems items : SortedPageRef K V).item i = some none := by
  have hNone : (offsetsOf items)[i]? = none := List.getElem?_eq_none (by simpa using h)
  simp [item, itemOffset, ofItems, hNone]

section Read

variable [PrefixCodec K] [Codec V]

theorem get_ofItems (E : List (K × V)) (hValid : ∀ e ∈ E, Valid e.1 ∧ Valid e.2) (i : Nat)
    (h : i < E.length) : (ofItems (encodedItems E) : SortedPageRef K V).get i = some (some E[i]) := by
  have hi : i < (encodedItems E).length := by simpa using h
  rw [get, item_ofItems (K := K) (V := V) _ i hi]
  simp [encodedItems, decodeEntry_entryBytes _ (hValid _ (List.getElem_mem h))]

theorem get_ofItems_of_le (E : List (K × V)) (i : Nat) (h : E.length ≤ i) :
    (ofItems (encodedItems E) : SortedPageRef K V).get i = some none := by
  rw [get, item_ofItems_of_le (K := K) (V := V) _ i (by simpa using h)]
  rfl

end Read

end SortedPageRef

namespace SortedPageIter

variable [PrefixCodec K] [Codec V]

/-- From index `j` on, the iterator yields the entries from `j` on, then `None`. -/
theorem drain_ofItems (E : List (K × V)) (hValid : ∀ e ∈ E, Valid e.1 ∧ Valid e.2)
    (j fuel : Nat) (h : E.length - j < fuel) :
    drain next fuel ⟨SortedPageRef.ofItems (encodedItems E), j⟩ = some (E.drop j) :=
  drain_eq_drop next E (fun j => ⟨SortedPageRef.ofItems (encodedItems E), j⟩)
    (fun j hj => by simp [next, SortedPageRef.get_ofItems E hValid j hj])
    (fun j hj => ⟨⟨SortedPageRef.ofItems (encodedItems E), j⟩,
      by simp [next, SortedPageRef.get_ofItems_of_le E j hj]⟩) j fuel h

end SortedPageIter

@[simp] theorem content_full (table payload : Bytes) :
    SortedPageBuf.content ⟨Encoder.written table [], Encoder.written payload []⟩ = table ++ payload := by
  simp [SortedPageBuf.content]

theorem sortedPage_roundTrip [PrefixCodec K] [Codec V] (E : List (K × V))
    (hValid : ∀ e ∈ E, Valid e.1 ∧ Valid e.2)
    (hSize : (SortedPageBuilder.new.withIter E).size < 2 ^ 32) (content : Bytes)
    (hContent : content.length = (SortedPageBuilder.new.withIter E).size) :
    ∃ (buf : SortedPageBuf) (page : SortedPageRef K V),
      (SortedPageBuf.new content (SortedPageBuilder.new.withIter E).numItems >>=
        (·.addAll E)) = some buf ∧
      buf.offsets.offset = buf.offsets.len ∧ buf.payload.offset = buf.payload.len ∧
      (SortedPageBuilder.new.withIter E).build content = some buf.content ∧
      SortedPageRef.new buf.content = some page ∧
      page.len = E.length ∧
      (∀ i (h : i < E.length), page.get i = some (some E[i])) ∧
      (∀ i, E.length ≤ i → page.get i = some none) ∧
      (∀ i, page.item i ≠ none) ∧
      (∀ fuel, E.length < fuel → drain SortedPageIter.next fuel (SortedPageIter.new page) = some E) ∧
      (∀ it : SortedPageIter K V, it.page = page →
        ∀ fuel, E.length < fuel → drain SortedPageIter.next fuel it.rewind = some E) := by
  have hBuilder := withIter_new E
  have hLayout : content.length = (layout (encodedItems E)).length := by rw [hContent, hBuilder]
  have hNew := SortedPageRef.new_layout (K := K) (V := V) (encodedItems E)
    (by rw [← hLayout, hContent]; exact hSize)
  refine ⟨_, SortedPageRef.ofItems (encodedItems E), by rw [hBuilder]; exact new_addAll E content hLayout,
    by simp, by simp, ?_, by simpa [layout] using hNew, by simp, SortedPageRef.get_ofItems E hValid,
    SortedPageRef.get_ofItems_of_le E, ?_, ?_, ?_⟩
  · rw [build_withIter E content hContent]
    simp [layout]
  · intro i
    by_cases hi : i < (encodedItems E).length
    · simp [SortedPageRef.item_ofItems _ i hi]
    · simp [SortedPageRef.item_ofItems_of_le _ i (Nat.le_of_not_lt hi)]
  · intro fuel hFuel
    simpa using SortedPageIter.drain_ofItems E hValid 0 fuel (by omega)
  · rintro ⟨_, j⟩ rfl fuel hFuel
    simpa using SortedPageIter.drain_ofItems E hValid 0 fuel (by omega)


theorem sortedPage_roundTrip_key_value :
    (∀ e ∈ [((⟨[1], 1⟩ : Key), Value.put [5])], Valid e.1 ∧ Valid e.2) ∧
    (SortedPageBuilder.new.withIter [((⟨[1], 1⟩ : Key), Value.put [5])]).size < 2 ^ 32 ∧
    (List.replicate 19 0).length =
      (SortedPageBuilder.new.withIter [((⟨[1], 1⟩ : Key), Value.put [5])]).size ∧
    ∃ (buf : SortedPageBuf) (page : SortedPageRef Key Value),
      (SortedPageBuf.new (List.replicate 19 0)
        (SortedPageBuilder.new.withIter [((⟨[1], 1⟩ : Key), Value.put [5])]).numItems >>=
          (·.addAll [((⟨[1], 1⟩ : Key), Value.put [5])])) = some buf ∧
      buf.offsets.offset = buf.offsets.len ∧ buf.payload.offset = buf.payload.len ∧
      (SortedPageBuilder.new.withIter [((⟨[1], 1⟩ : Key), Value.put [5])]).build
        (List.replicate 19 0) = some buf.content ∧
      SortedPageRef.new buf.content = some page ∧
      page.len = 1 ∧
      (∀ i (h : i < 1), page.get i = some (some [((⟨[1], 1⟩ : Key), Value.put [5])][i])) ∧
      (∀ i, 1 ≤ i → page.get i = some none) ∧
      (∀ i, page.item i ≠ none) ∧
      (∀ fuel, 1 < fuel →
        drain SortedPageIter.next fuel (SortedPageIter.new page) = some [((⟨[1], 1⟩ : Key), Value.put [5])]) ∧
      (∀ it : SortedPageIter Key Value, it.page = page → ∀ fuel, 1 < fuel →
        drain SortedPageIter.next fuel it.rewind = some [((⟨[1], 1⟩ : Key), Value.put [5])]) :=
  ⟨by decide, by decide, by decide,
    sortedPage_roundTrip [((⟨[1], 1⟩ : Key), Value.put [5])] (by decide) (by decide)
      (List.replicate 19 0) (by decide)⟩

end PhotonDb.Page
