import PhotonDb.Engine.SortedPage
import PhotonDb.Page.RoundTrip

/-! # Round trip of the engine sorted page

The sizing pass computes the size of the spec's `layout`, and the writing pass, which stores
each offset through the raw `offsets` pointer while the writer appends the entry, leaves
exactly that layout in the page. The reader then finds each entry at its offset, and each
entry ends inside the content.
-/

namespace PhotonDb.Engine

open PhotonDb.Page (Encoder Decoder Codec PrefixCodec Valid bytes encodeSize entryBytes
  encodedItems layout offsetsOf entryOffsets leBytes drain)

set_option autoImplicit false

variable {K V : Type}

section Builder

variable [Codec K] [Codec V]

theorem addAll_builder (E : List (K × V)) (b : SortedPageBuilder) :
    b.addAll E = ⟨b.offsetsSize + 4 * E.length,
      b.payloadSize + ((encodedItems E).map List.length).sum⟩ := by
  induction E generalizing b with
  | nil => simp [SortedPageBuilder.addAll, encodedItems]
  | cons e E ih =>
    simp only [SortedPageBuilder.addAll, List.foldl_cons] at ih ⊢
    rw [ih]
    simp [SortedPageBuilder.add, encodedItems, PhotonDb.Page.length_entryBytes]
    omega

theorem size_addAll_new (E : List (K × V)) :
    (SortedPageBuilder.new.addAll E).size = (layout (encodedItems E)).length := by
  simp [addAll_builder, SortedPageBuilder.new, SortedPageBuilder.size, PhotonDb.Page.length_layout]

theorem add_written (e : K × V) (tDone tRest pDone pRest : Bytes) (j : Nat)
    (hT : tDone.length = 4 * j) (hTRest : 4 ≤ tRest.length)
    (hP : (entryBytes e).length ≤ pRest.length) :
    (⟨Encoder.written (tDone ++ tRest ++ pDone) pRest, j⟩ : SortedPageBuf).add e.1 e.2 =
      some ⟨Encoder.written (tDone ++ leBytes 4 (tDone ++ tRest ++ pDone).length ++
        tRest.drop 4 ++ pDone ++ entryBytes e) (pRest.drop (entryBytes e).length), j + 1⟩ := by
  have hOffset : PhotonDb.Page.overwrite (tDone ++ tRest ++ pDone ++ pRest) (4 * j)
      (leBytes 4 (tDone ++ tRest ++ pDone).length) =
      some (tDone ++ leBytes 4 (tDone ++ tRest ++ pDone).length ++ tRest.drop 4 ++ pDone ++ pRest) := by
    rw [← hT, List.append_assoc, List.append_assoc, PhotonDb.Page.overwrite_written _ _ _
      (by simp; omega)]
    simp [List.drop_append_of_le_length (show 4 ≤ tRest.length from hTRest)]
  have hWriter : (⟨tDone ++ leBytes 4 (tDone ++ tRest ++ pDone).length ++ tRest.drop 4 ++ pDone ++
      pRest, (tDone ++ tRest ++ pDone).length⟩ : Encoder) =
      Encoder.written (tDone ++ leBytes 4 (tDone ++ tRest ++ pDone).length ++ tRest.drop 4 ++
        pDone) pRest := by
    simp only [Encoder.written, List.length_append, PhotonDb.Page.length_leBytes, List.length_drop]
    congr 1
    omega
  simp only [SortedPageBuf.add, Encoder.offset_written, Encoder.buf_written, hOffset,
    Option.bind_eq_bind, Option.some_bind, hWriter, PhotonDb.Page.encodeEntry_eq,
    Encoder.putSlice_written _ _ _ hP]
  rfl

theorem addAll_written (E : List (K × V)) (tDone tRest pDone pRest : Bytes) (j : Nat)
    (hT : tDone.length = 4 * j) (hTRest : tRest.length = 4 * E.length)
    (hP : pRest.length = ((encodedItems E).map List.length).sum) :
    (⟨Encoder.written (tDone ++ tRest ++ pDone) pRest, j⟩ : SortedPageBuf).addAll E =
      some ⟨Encoder.written (tDone ++ (entryOffsets (tDone ++ tRest ++ pDone).length
        ((encodedItems E).map List.length)).flatMap (leBytes 4) ++ pDone ++
          (encodedItems E).flatten) [], j + E.length⟩ := by
  induction E generalizing tDone tRest pDone pRest j with
  | nil =>
    simp [encodedItems] at hTRest hP
    simp [SortedPageBuf.addAll, encodedItems, entryOffsets, hTRest, hP]
  | cons e E ih =>
    simp only [encodedItems, List.map_cons, List.sum_cons, List.length_cons] at hTRest hP
    obtain ⟨k, v⟩ := e
    rw [SortedPageBuf.addAll, List.foldlM_cons]
    simp only
    rw [add_written (k, v) _ _ _ _ _ hT (by omega) (by omega)]
    simp only [Option.bind_eq_bind, Option.some_bind]
    have hShape : tDone ++ leBytes 4 (tDone ++ tRest ++ pDone).length ++ tRest.drop 4 ++ pDone ++
        entryBytes (k, v) = (tDone ++ leBytes 4 (tDone ++ tRest ++ pDone).length) ++
          tRest.drop 4 ++ (pDone ++ entryBytes (k, v)) := by simp
    rw [hShape, ← SortedPageBuf.addAll, ih _ _ _ _ _ (by simp; omega)
      (by rw [List.length_drop, hTRest]; omega)
      (by rw [List.length_drop, hP, Nat.add_sub_cancel_left]; rfl)]
    have hStart : ((tDone ++ leBytes 4 (tDone ++ tRest ++ pDone).length) ++ tRest.drop 4 ++
        (pDone ++ entryBytes (k, v))).length =
        (tDone ++ tRest ++ pDone).length + (entryBytes (k, v)).length := by
      simp only [List.length_append, PhotonDb.Page.length_leBytes, List.length_drop]; omega
    rw [hStart]
    simp only [encodedItems, List.map_cons, entryOffsets, List.flatMap_cons, List.flatten_cons,
      List.append_assoc, List.length_cons]
    congr 2
    omega

theorem buildFromIter_new {ε : Type} (E : List (K × V)) (alloc : Nat → Except ε Bytes)
    (ptr : Bytes) (hAlloc : alloc (SortedPageBuilder.new.addAll E).size = .ok ptr)
    (hPtr : ptr.length = (SortedPageBuilder.new.addAll E).size) :
    SortedPageBuilder.new.buildFromIter alloc E =
      some (.ok ⟨Encoder.written (layout (encodedItems E)) [], E.length⟩) := by
  rw [size_addAll_new, PhotonDb.Page.length_layout, PhotonDb.Page.length_encodedItems] at hPtr
  have hTable : 4 * E.length ≤ ptr.length := by omega
  have hSkip : (Encoder.new ptr).skip (SortedPageBuilder.new.addAll E).offsetsSize =
      some (Encoder.written ([] ++ ptr.take (4 * E.length) ++ []) (ptr.drop (4 * E.length))) := by
    rw [Encoder.new_eq, Encoder.skip_written _ _ _ (by simpa [addAll_builder,
      SortedPageBuilder.new] using hTable)]
    simp [addAll_builder, SortedPageBuilder.new]
  simp only [SortedPageBuilder.buildFromIter, hAlloc, SortedPageBuf.new, hSkip, Option.map_some',
    Option.bind_eq_bind, Option.some_bind]
  rw [addAll_written E [] _ [] _ 0 rfl (by simp; omega) (by simp; omega)]
  simp [layout, offsetsOf, Nat.min_eq_left hTable]

end Builder

/-- `build` on a new builder asks for no bytes and reads back as an empty page. -/
theorem build_new {ε : Type} (alloc : Nat → Except ε Bytes) (hAlloc : alloc 0 = .ok []) :
    ∃ buf, SortedPageBuilder.new.build alloc = some (.ok buf) ∧
      ∃ page : SortedPageRef K V, buf.asRef = some page ∧ page.len = 0 :=
  ⟨⟨⟨[], 0⟩, 0⟩, by simp [SortedPageBuilder.build, SortedPageBuilder.size, SortedPageBuilder.new,
    hAlloc, SortedPageBuf.new, Encoder.skip, Encoder.new, Encoder.len], ⟨[], []⟩, rfl, rfl⟩

namespace SortedPageRef

/-- The page holding `items` in the spec's layout. -/
def ofItems (items : List Bytes) : SortedPageRef K V := ⟨layout items, offsetsOf items⟩

/-- The engine reader opens a content as the old reader does. -/
theorem new_eq_page (content : Bytes) :
    (SortedPageRef.new content : Option (SortedPageRef K V)) =
      (Page.SortedPageRef.new content : Option (Page.SortedPageRef K V)).map
        fun p => ⟨p.content, p.offsets⟩ := by
  cases content with
  | nil => rfl
  | cons b bs =>
    simp only [SortedPageRef.new, Page.SortedPageRef.new, List.length_cons, List.isEmpty_cons,
      Nat.add_one_ne_zero, Bool.false_eq_true, if_false]
    cases PhotonDb.Page.Decoder.getU32 ⟨b :: bs⟩ <;> simp

theorem new_layout (items : List Bytes) (h : (layout items).length < 2 ^ 32) :
    SortedPageRef.new (layout items) = some (ofItems items : SortedPageRef K V) := by
  rw [new_eq_page, Page.SortedPageRef.new_layout (K := K) (V := V) items h]
  rfl

@[simp] theorem len_ofItems (items : List Bytes) :
    (ofItems items : SortedPageRef K V).len = items.length := by
  simp [ofItems, len]

theorem contentAt_ofItems (items : List Bytes) (i : Nat) (h : i < items.length) :
    ∃ offset, (ofItems items : SortedPageRef K V).offsets[i]? = some offset ∧
      offset + items[i].length ≤ (layout items).length ∧
      (ofItems items : SortedPageRef K V).contentAt offset =
        some ⟨items[i] ++ (items.drop (i + 1)).flatten⟩ := by
  have hi : i < (offsetsOf items).length := by simpa using h
  have hEnd := PhotonDb.Page.offset_add_length_le items i h
  have hDrop := PhotonDb.Page.drop_layout_offsetsOf items i h
  simp only [List.get_eq_getElem] at hEnd hDrop
  refine ⟨_, List.getElem?_eq_getElem hi, hEnd, ?_⟩
  simp only [contentAt, ofItems, hDrop, if_pos (show (offsetsOf items)[i] ≤ (layout items).length
    by omega)]

section Read

variable [PrefixCodec K] [PrefixCodec V]

theorem get_ofItems (E : List (K × V)) (hValid : ∀ e ∈ E, Valid e.1 ∧ Valid e.2) (i : Nat)
    (h : i < E.length) :
    (ofItems (encodedItems E) : SortedPageRef K V).get i = some (some E[i]) := by
  obtain ⟨offset, hOffset, -, hAt⟩ :=
    contentAt_ofItems (K := K) (V := V) (encodedItems E) i (by simpa using h)
  simp only [get, hOffset, hAt, Option.bind_eq_bind, Option.some_bind]
  simp [encodedItems, PhotonDb.Page.decodeEntry_entryBytes_append _ _
    (hValid _ (List.getElem_mem h))]

theorem get_ofItems_of_le (E : List (K × V)) (i : Nat) (h : E.length ≤ i) :
    (ofItems (encodedItems E) : SortedPageRef K V).get i = some none := by
  have hNone : (offsetsOf (encodedItems E))[i]? = none := List.getElem?_eq_none (by simpa using h)
  simp [get, ofItems, hNone]

end Read

end SortedPageRef

namespace SortedPageIter

theorem getLast?_take_succ (E : List (K × V)) (j : Nat) (h : j < E.length) :
    (E.take (j + 1)).getLast? = some E[j] := by
  rw [List.getLast?_eq_getElem?, List.getElem?_take]
  simp [Nat.min_eq_left (show j + 1 ≤ E.length by omega), h]

variable [PrefixCodec K] [PrefixCodec V]

/-- From index `j` on, with the last entry returned before it, the iterator yields the
entries from `j` on, then `None`. -/
theorem drain_ofItems (E : List (K × V)) (hValid : ∀ e ∈ E, Valid e.1 ∧ Valid e.2)
    (j fuel : Nat) (h : E.length - j < fuel) :
    drain next fuel ⟨SortedPageRef.ofItems (encodedItems E), j, (E.take j).getLast?⟩ =
      some (E.drop j) :=
  PhotonDb.Page.drain_eq_drop next E
    (fun j => ⟨SortedPageRef.ofItems (encodedItems E), j, (E.take j).getLast?⟩)
    (fun j hj => by simp [next, SortedPageRef.get_ofItems E hValid j hj, getLast?_take_succ E j hj])
    (fun j hj => ⟨⟨SortedPageRef.ofItems (encodedItems E), j, none⟩,
      by simp [next, SortedPageRef.get_ofItems_of_le E j hj]⟩) j fuel h

end SortedPageIter

theorem engine_sortedPage_roundTrip {ε : Type} [PrefixCodec K] [PrefixCodec V]
    (E : List (K × V)) (hValid : ∀ e ∈ E, Valid e.1 ∧ Valid e.2)
    (hSize : (SortedPageBuilder.new.addAll E).size < 2 ^ 32)
    (alloc : Nat → Except ε Bytes) (ptr : Bytes)
    (hAlloc : alloc (SortedPageBuilder.new.addAll E).size = .ok ptr)
    (hPtr : ptr.length = (SortedPageBuilder.new.addAll E).size) :
    ∃ (buf : SortedPageBuf) (page : SortedPageRef K V),
      SortedPageBuilder.new.buildFromIter alloc E = some (.ok buf) ∧
      buf.asRef = some page ∧ page.len = E.length ∧
      (∀ i (h : i < E.length), page.get i = some (some E[i])) ∧
      (∀ i, E.length ≤ i → page.get i = some none) ∧
      (∀ i (h : i < E.length), ∃ offset, page.offsets[i]? = some offset ∧
        offset + (encodeSize E[i].1 + encodeSize E[i].2) ≤ page.content.length) ∧
      (∀ fuel, E.length < fuel → drain SortedPageIter.next fuel page.iter = some E) ∧
      (∀ it : SortedPageIter K V, it.page = page → ∀ fuel, E.length < fuel →
        drain SortedPageIter.next fuel it.rewind = some E) := by
  rw [size_addAll_new] at hSize
  refine ⟨_, SortedPageRef.ofItems (encodedItems E), buildFromIter_new E alloc ptr hAlloc hPtr,
    ?_, by simp, SortedPageRef.get_ofItems E hValid, SortedPageRef.get_ofItems_of_le E,
    fun i h => ?_, fun fuel hFuel => ?_, ?_⟩
  · simpa [SortedPageBuf.asRef] using SortedPageRef.new_layout (K := K) (V := V) _ hSize
  · obtain ⟨offset, hOffset, hEnd, -⟩ :=
      SortedPageRef.contentAt_ofItems (K := K) (V := V) (encodedItems E) i (by simpa using h)
    exact ⟨offset, hOffset, by simpa [encodedItems] using hEnd⟩
  · simpa using SortedPageIter.drain_ofItems E hValid 0 fuel (by omega)
  · rintro ⟨_, j, last⟩ rfl fuel hFuel
    simpa using SortedPageIter.drain_ofItems E hValid 0 fuel (by omega)

theorem engine_sortedPage_roundTrip_key_index :
    (∀ e ∈ [((⟨[1], 1⟩ : PhotonDb.Page.Key), (⟨7, 0⟩ : PhotonDb.Page.Index))], Valid e.1 ∧ Valid e.2) ∧
    (SortedPageBuilder.new.addAll [((⟨[1], 1⟩ : PhotonDb.Page.Key), (⟨7, 0⟩ : PhotonDb.Page.Index))]).size < 2 ^ 32 ∧
    (fun n => (Except.ok (List.replicate n 0) : Except String Bytes)) (SortedPageBuilder.new.addAll [((⟨[1], 1⟩ : PhotonDb.Page.Key), (⟨7, 0⟩ : PhotonDb.Page.Index))]).size = .ok (List.replicate 33 0) ∧
    (List.replicate 33 0).length = (SortedPageBuilder.new.addAll [((⟨[1], 1⟩ : PhotonDb.Page.Key), (⟨7, 0⟩ : PhotonDb.Page.Index))]).size ∧
    ∃ (buf : SortedPageBuf) (page : SortedPageRef PhotonDb.Page.Key PhotonDb.Page.Index),
      SortedPageBuilder.new.buildFromIter (fun n => (Except.ok (List.replicate n 0) : Except String Bytes)) [((⟨[1], 1⟩ : PhotonDb.Page.Key), (⟨7, 0⟩ : PhotonDb.Page.Index))] = some (.ok buf) ∧
      buf.asRef = some page ∧ page.len = 1 ∧
      (∀ i (h : i < 1), page.get i = some (some [((⟨[1], 1⟩ : PhotonDb.Page.Key), (⟨7, 0⟩ : PhotonDb.Page.Index))][i])) ∧
      (∀ i, 1 ≤ i → page.get i = some none) ∧
      (∀ i (h : i < 1), ∃ offset, page.offsets[i]? = some offset ∧
        offset + (encodeSize [((⟨[1], 1⟩ : PhotonDb.Page.Key), (⟨7, 0⟩ : PhotonDb.Page.Index))][i].1 + encodeSize [((⟨[1], 1⟩ : PhotonDb.Page.Key), (⟨7, 0⟩ : PhotonDb.Page.Index))][i].2) ≤ page.content.length) ∧
      (∀ fuel, 1 < fuel → drain SortedPageIter.next fuel page.iter = some [((⟨[1], 1⟩ : PhotonDb.Page.Key), (⟨7, 0⟩ : PhotonDb.Page.Index))]) ∧
      (∀ it : SortedPageIter PhotonDb.Page.Key PhotonDb.Page.Index, it.page = page →
        ∀ fuel, 1 < fuel → drain SortedPageIter.next fuel it.rewind = some [((⟨[1], 1⟩ : PhotonDb.Page.Key), (⟨7, 0⟩ : PhotonDb.Page.Index))]) :=
  ⟨by decide, by decide, rfl, by decide,
    engine_sortedPage_roundTrip [((⟨[1], 1⟩ : PhotonDb.Page.Key), (⟨7, 0⟩ : PhotonDb.Page.Index))] (by decide) (by decide) (fun n => (Except.ok (List.replicate n 0) : Except String Bytes)) (List.replicate 33 0) rfl (by decide)⟩

end PhotonDb.Engine
