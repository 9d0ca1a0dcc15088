import PhotonDb.Codec.Buffer

/-! # The sorted page layout

The spec (§4.1) lays a sorted page out as `[offsets: u32; N][payload]`: one little-endian
offset per item, each counted from the start of the content, so that the first offset is
also the size of the offsets table, followed by the items back to back. `layout` is that
layout as a function of the encoded items; both sorted page builders are shown to write it,
and the lemmas here are what both readers need of it.
-/

namespace PhotonDb.Page

set_option autoImplicit false

/-- The offsets of items of the given sizes laid out one after another from `start`. -/
def entryOffsets : Nat → List Nat → List Nat
  | _, [] => []
  | start, size :: sizes => start :: entryOffsets (start + size) sizes

@[simp] theorem length_entryOffsets (start : Nat) (sizes : List Nat) :
    (entryOffsets start sizes).length = sizes.length := by
  induction sizes generalizing start <;> simp [entryOffsets, *]

theorem getElem_entryOffsets (start : Nat) (sizes : List Nat) (i : Nat)
    (h : i < (entryOffsets start sizes).length) :
    (entryOffsets start sizes)[i] = start + (sizes.take i).sum := by
  induction sizes generalizing start i with
  | nil => simp at h
  | cons size sizes ih =>
    cases i with
    | zero => simp [entryOffsets]
    | succ i =>
      simp only [entryOffsets, List.getElem_cons_succ, List.take_succ_cons, List.sum_cons]
      rw [ih]
      omega

/-- The offsets table of `items`: the table itself comes first, so the first item starts
after `4 * items.length` bytes. -/
def offsetsOf (items : List Bytes) : List Nat :=
  entryOffsets (4 * items.length) (items.map List.length)

/-- The content of a sorted page holding `items`, as the spec lays it out. -/
def layout (items : List Bytes) : Bytes :=
  (offsetsOf items).flatMap (leBytes 4) ++ items.flatten

@[simp] theorem length_offsetsOf (items : List Bytes) :
    (offsetsOf items).length = items.length := by
  simp [offsetsOf]

theorem getElem_offsetsOf (items : List Bytes) (i : Nat) (h : i < (offsetsOf items).length) :
    (offsetsOf items)[i] = 4 * items.length + ((items.take i).map List.length).sum := by
  simp [offsetsOf, getElem_entryOffsets, List.map_take]

theorem length_flatMap_leBytes (words : List Nat) :
    (words.flatMap (leBytes 4)).length = 4 * words.length := by
  induction words with
  | nil => rfl
  | cons w words ih => simp [List.flatMap_cons, ih]; omega

theorem length_table (items : List Bytes) :
    ((offsetsOf items).flatMap (leBytes 4)).length = 4 * items.length := by
  rw [length_flatMap_leBytes, length_offsetsOf]

theorem length_layout (items : List Bytes) :
    (layout items).length = 4 * items.length + (items.map List.length).sum := by
  rw [layout, List.length_append, length_table, List.length_flatten]

theorem drop_flatten_sum_take (items : List Bytes) (i : Nat) (h : i < items.length) :
    items.flatten.drop ((items.take i).map List.length).sum =
      items[i] ++ (items.drop (i + 1)).flatten := by
  induction items generalizing i with
  | nil => simp at h
  | cons item items ih =>
    cases i with
    | zero => simp
    | succ i =>
      simp only [List.take_succ_cons, List.map_cons, List.sum_cons, List.flatten_cons,
        List.drop_append, List.getElem_cons_succ, List.drop_succ_cons]
      exact ih i (by simpa using h)

theorem drop_layout_offsetsOf (items : List Bytes) (i : Nat) (h : i < items.length) :
    (layout items).drop ((offsetsOf items).get ⟨i, by simpa using h⟩) =
      items[i] ++ (items.drop (i + 1)).flatten := by
  rw [List.get_eq_getElem, layout, getElem_offsetsOf, ← length_table, List.drop_append]
  exact drop_flatten_sum_take items i h

theorem sum_take_le (items : List Bytes) (i : Nat) :
    ((items.take i).map List.length).sum ≤ (items.map List.length).sum := by
  have hSplit := List.sum_take_add_sum_drop (items.map List.length) i
  rw [List.map_take]
  omega

theorem offsetsOf_lt (items : List Bytes) (h : (layout items).length < 2 ^ 32) :
    ∀ w ∈ offsetsOf items, w < 2 ^ 32 := by
  intro w hw
  obtain ⟨i, hi, rfl⟩ := List.getElem_of_mem hw
  have hLe := sum_take_le items i
  rw [getElem_offsetsOf]
  rw [length_layout] at h
  omega

theorem nextOffset_eq (items : List Bytes) (i : Nat) (h : i < items.length) :
    ((offsetsOf items)[i + 1]?).getD (layout items).length =
      (offsetsOf items).get ⟨i, by simpa using h⟩ + items[i].length := by
  have hSucc : ((items.take (i + 1)).map List.length).sum =
      ((items.take i).map List.length).sum + items[i].length := by
    rw [List.map_take, List.map_take, List.sum_take_succ _ _ (by simpa using h),
      List.getElem_map]
  rw [List.get_eq_getElem, getElem_offsetsOf, Nat.add_assoc, ← hSucc]
  by_cases hNext : i + 1 < items.length
  · rw [List.getElem?_eq_getElem (by simpa using hNext), Option.getD_some, getElem_offsetsOf]
  · rw [List.getElem?_eq_none (by simp; omega), Option.getD_none, length_layout,
      List.take_of_length_le (by omega)]

theorem offset_add_length_le (items : List Bytes) (i : Nat) (h : i < items.length) :
    (offsetsOf items).get ⟨i, by simpa using h⟩ + items[i].length ≤ (layout items).length := by
  rw [← nextOffset_eq items i h]
  rcases hNext : (offsetsOf items)[i + 1]? with _ | next
  · exact le_rfl
  · obtain ⟨hj, rfl⟩ := List.getElem?_eq_some_iff.mp hNext
    have hLe := sum_take_le items (i + 1)
    rw [Option.getD_some, getElem_offsetsOf, length_layout]
    omega

/-- The first word of a non-empty layout is the size of the offsets table. -/
theorem getU32_layout (items : List Bytes) (h : (layout items).length < 2 ^ 32)
    (hItems : items ≠ []) :
    ∃ dec, Decoder.getU32 ⟨layout items⟩ = some (4 * items.length, dec) := by
  obtain ⟨item, items, rfl⟩ := List.exists_cons_of_ne_nil hItems
  have hOffsets : offsetsOf (item :: items) = 4 * (items.length + 1) ::
      entryOffsets (4 * (items.length + 1) + item.length) (items.map List.length) := rfl
  have hFirst : 4 * (items.length + 1) < 2 ^ 32 :=
    offsetsOf_lt _ h _ (by rw [hOffsets]; exact List.mem_cons_self _ _)
  rw [layout, hOffsets, List.flatMap_cons, List.append_assoc]
  exact ⟨_, Decoder.getU32_leBytes _ _ hFirst⟩

theorem getU32s_layout (items : List Bytes) (h : (layout items).length < 2 ^ 32) :
    Decoder.getU32s items.length ⟨layout items⟩ = some (offsetsOf items, ⟨items.flatten⟩) := by
  have hTable := Decoder.getU32s_flatMap _ items.flatten (offsetsOf_lt items h)
  rwa [length_offsetsOf] at hTable

/-- The items an iterator yields before its `next` returns `None`, calling `next` at most
`fuel` times; `none` when a call fails or the fuel runs out first. -/
def drain {σ α : Type} (next : σ → Option (Option α × σ)) : Nat → σ → Option (List α)
  | 0, _ => none
  | fuel + 1, it => next it >>= fun
    | (some item, it) => (drain next fuel it).map (item :: ·)
    | (none, _) => some []

/-- An iterator whose state `state j` yields item `j` and moves to `state (j + 1)`, and
yields `None` past the last item, yields the items from `j` on. -/
theorem drain_eq_drop {σ α : Type} (next : σ → Option (Option α × σ)) (items : List α)
    (state : Nat → σ)
    (hYield : ∀ j (h : j < items.length), next (state j) = some (some items[j], state (j + 1)))
    (hEnd : ∀ j, items.length ≤ j → ∃ it, next (state j) = some (none, it))
    (j fuel : Nat) (h : items.length - j < fuel) :
    drain next fuel (state j) = some (items.drop j) := by
  induction fuel generalizing j with
  | zero => omega
  | succ fuel ih =>
    by_cases hj : j < items.length
    · rw [List.drop_eq_getElem_cons hj]
      simp [drain, hYield j hj, ih (j + 1) (by omega)]
    · obtain ⟨it, hIt⟩ := hEnd j (by omega)
      simp [drain, hIt, List.drop_eq_nil_of_le (Nat.le_of_not_lt hj)]

end PhotonDb.Page
