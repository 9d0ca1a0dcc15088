import PhotonDb.Page.RoundTrip

/-! # Binary search of the sorted page

`rank` keeps the window `[left, right)` such that every key before `left` is below the
target and every key from `right` on is above it. Each probe lies inside the window, hence
below `len()`, so the `unwrap` of `item(mid)` never fails; the window shrinks at each step,
and when it is empty `left` is the insertion point.
-/

namespace PhotonDb.Page

set_option autoImplicit false

variable {K V : Type}

/-- On a sorted list, a key at an earlier index is no greater. -/
theorem key_le_of_le {E : List (K × V)} [LinearOrder K] (hSorted : (E.map Prod.fst).Sorted (· ≤ ·))
    {i j : Nat} (hi : i < E.length) (hj : j < E.length) (hij : i ≤ j) : E[i].1 ≤ E[j].1 := by
  have h := hSorted.rel_get_of_le (a := ⟨i, by simpa using hi⟩) (b := ⟨j, by simpa using hj⟩) hij
  simpa using h

namespace SortedPageRef

variable [PrefixCodec K] [Codec V]

theorem item_key_ofItems (E : List (K × V)) (hValid : ∀ e ∈ E, Valid e.1 ∧ Valid e.2) (i : Nat)
    (h : i < E.length) :
    (ofItems (encodedItems E) : SortedPageRef K V).item i = some (some (entryBytes E[i])) ∧
      (decodeFrom ⟨entryBytes E[i]⟩ : Option (K × Decoder)) = some (E[i].1, ⟨bytes E[i].2⟩) := by
  refine ⟨by simpa [encodedItems] using
    item_ofItems (K := K) (V := V) (encodedItems E) i (by simpa using h), ?_⟩
  simp [entryBytes, decodeFrom_bytes_append _ _ (hValid _ (List.getElem_mem h)).1]

variable [LinearOrder K]

/-- What `rank` returns: a matching index, or an insertion point that separates the keys
below the target from the keys above it. -/
def RankResult (E : List (K × V)) (target : K) : Except Nat Nat → Prop
  | .ok i => ∃ h : i < E.length, E[i].1 = target
  | .error i => i ≤ E.length ∧ (∀ j (h : j < E.length), j < i → E[j].1 < target) ∧
      ∀ j (h : j < E.length), i ≤ j → target < E[j].1

theorem rankLoop_ofItems (E : List (K × V)) (hValid : ∀ e ∈ E, Valid e.1 ∧ Valid e.2)
    (hSorted : (E.map Prod.fst).Sorted (· ≤ ·)) (target : K) (left right : Nat)
    (hLR : left ≤ right) (hRight : right ≤ E.length)
    (hBelow : ∀ j (h : j < E.length), j < left → E[j].1 < target)
    (hAbove : ∀ j (h : j < E.length), right ≤ j → target < E[j].1) :
    ∃ r, (ofItems (encodedItems E) : SortedPageRef K V).rankLoop target left right = some r ∧
      RankResult E target r := by
  obtain ⟨width, hWidth⟩ : ∃ width, right - left = width := ⟨_, rfl⟩
  induction width using Nat.strong_induction_on generalizing left right with
  | h width ih =>
    rw [rankLoop]
    split
    · rename_i hLt
      have hMid : (left + right) / 2 < E.length := by omega
      obtain ⟨hItem, hKey⟩ := item_key_ofItems E hValid _ hMid
      simp only [hItem, hKey, Option.bind_eq_bind, Option.some_bind]
      split
      · rename_i hCmp
        have hKey : E[(left + right) / 2].1 < target := compare_lt_iff_lt.mp hCmp
        exact ih _ (by omega) _ _ (by omega) hRight
          (fun j hj hjl => lt_of_le_of_lt (key_le_of_le hSorted hj hMid (by omega)) hKey)
          hAbove rfl
      · rename_i hCmp
        have hKey : target < E[(left + right) / 2].1 := compare_gt_iff_gt.mp hCmp
        exact ih _ (by omega) _ _ (by omega) (by omega) hBelow
          (fun j hj hjr => lt_of_lt_of_le hKey (key_le_of_le hSorted hMid hj hjr)) rfl
      · rename_i hCmp
        exact ⟨_, rfl, hMid, compare_eq_iff_eq.mp hCmp⟩
    · exact ⟨_, rfl, by omega, hBelow, fun j hj hij => hAbove j hj (by omega)⟩

theorem rank_ofItems (E : List (K × V)) (hValid : ∀ e ∈ E, Valid e.1 ∧ Valid e.2)
    (hSorted : (E.map Prod.fst).Sorted (· ≤ ·)) (target : K) :
    ∃ r, (ofItems (encodedItems E) : SortedPageRef K V).rank target = some r ∧
      RankResult E target r := by
  rw [rank, len_ofItems, length_encodedItems]
  exact rankLoop_ofItems E hValid hSorted target 0 E.length (Nat.zero_le _) le_rfl
    (fun j _ hj => absurd hj (Nat.not_lt_zero j)) (fun j hj hLe => absurd hj (by omega))

end SortedPageRef

theorem sortedPage_rank_seek [PrefixCodec K] [Codec V] [LinearOrder K] (E : List (K × V))
    (hValid : ∀ e ∈ E, Valid e.1 ∧ Valid e.2) (hSorted : (E.map Prod.fst).Sorted (· ≤ ·))
    (hSize : (SortedPageBuilder.new.withIter E).size < 2 ^ 32) (content : Bytes)
    (hContent : content.length = (SortedPageBuilder.new.withIter E).size) :
    ∃ page : SortedPageRef K V,
      ((SortedPageBuilder.new.withIter E).build content >>= SortedPageRef.new) = some page ∧
      page.len = E.length ∧
      ∀ target : K, ∃ r, page.rank target = some r ∧
        (∀ i, r = .ok i → ∃ h : i < E.length, E[i].1 = target) ∧
        (∀ i, r = .error i → i ≤ E.length ∧ (∀ j (h : j < E.length), E[j].1 ≠ target) ∧
          (∀ j (h : j < E.length), j < i → E[j].1 < target) ∧
          (∀ j (h : j < E.length), i ≤ j → target < E[j].1)) ∧
        ∀ i, (r = .ok i ∨ r = .error i) → ∀ it : SortedPageIter K V, it.page = page →
          ∃ it', it.seek target = some it' ∧
            ∀ fuel, E.length - i < fuel → drain SortedPageIter.next fuel it' = some (E.drop i) := by
  have hLayout : (layout (encodedItems E)).length < 2 ^ 32 := by rwa [withIter_new] at hSize
  refine ⟨SortedPageRef.ofItems (encodedItems E), ?_, by simp, fun target => ?_⟩
  · rw [build_withIter E content hContent, Option.bind_eq_bind, Option.some_bind,
      SortedPageRef.new_layout _ hLayout]
  obtain ⟨r, hRank, hResult⟩ := SortedPageRef.rank_ofItems E hValid hSorted target
  have hSeek : ∀ i, (r = .ok i ∨ r = .error i) → ∀ it : SortedPageIter K V,
      it.page = SortedPageRef.ofItems (encodedItems E) → ∃ it', it.seek target = some it' ∧
        ∀ fuel, E.length - i < fuel → drain SortedPageIter.next fuel it' = some (E.drop i) := by
    rintro i hi ⟨_, j⟩ rfl
    refine ⟨⟨SortedPageRef.ofItems (encodedItems E), i⟩, ?_,
      SortedPageIter.drain_ofItems E hValid i⟩
    rcases hi with rfl | rfl <;> simp [SortedPageIter.seek, hRank]
  refine ⟨r, hRank, ?_, ?_, hSeek⟩
  · rintro i rfl
    exact hResult
  · rintro i rfl
    obtain ⟨hLe, hBelow, hAbove⟩ := hResult
    refine ⟨hLe, fun j hj hEq => ?_, hBelow, hAbove⟩
    rcases Nat.lt_or_ge j i with hji | hji
    · exact (hBelow j hj hji).ne hEq
    · exact (hAbove j hj hji).ne' hEq

theorem sortedPage_rank_seek_key_value :
    (∀ e ∈ [((⟨[1], 1⟩ : Key), Value.put [5]), ((⟨[2], 1⟩ : Key), Value.delete)], Valid e.1 ∧ Valid e.2) ∧
    ([((⟨[1], 1⟩ : Key), Value.put [5]), ((⟨[2], 1⟩ : Key), Value.delete)].map Prod.fst).Sorted (· ≤ ·) ∧
    (SortedPageBuilder.new.withIter [((⟨[1], 1⟩ : Key), Value.put [5]), ((⟨[2], 1⟩ : Key), Value.delete)]).size < 2 ^ 32 ∧
    (List.replicate 37 0).length = (SortedPageBuilder.new.withIter [((⟨[1], 1⟩ : Key), Value.put [5]), ((⟨[2], 1⟩ : Key), Value.delete)]).size ∧
    ∃ page : SortedPageRef Key Value,
      ((SortedPageBuilder.new.withIter [((⟨[1], 1⟩ : Key), Value.put [5]), ((⟨[2], 1⟩ : Key), Value.delete)]).build (List.replicate 37 0) >>= SortedPageRef.new) = some page ∧
      page.len = 2 ∧
      ∀ target : Key, ∃ r, page.rank target = some r ∧
        (∀ i, r = .ok i → ∃ h : i < 2, [((⟨[1], 1⟩ : Key), Value.put [5]), ((⟨[2], 1⟩ : Key), Value.delete)][i].1 = target) ∧
        (∀ i, r = .error i → i ≤ 2 ∧ (∀ j (h : j < 2), [((⟨[1], 1⟩ : Key), Value.put [5]), ((⟨[2], 1⟩ : Key), Value.delete)][j].1 ≠ target) ∧
          (∀ j (h : j < 2), j < i → [((⟨[1], 1⟩ : Key), Value.put [5]), ((⟨[2], 1⟩ : Key), Value.delete)][j].1 < target) ∧
          (∀ j (h : j < 2), i ≤ j → target < [((⟨[1], 1⟩ : Key), Value.put [5]), ((⟨[2], 1⟩ : Key), Value.delete)][j].1)) ∧
        ∀ i, (r = .ok i ∨ r = .error i) → ∀ it : SortedPageIter Key Value, it.page = page →
          ∃ it', it.seek target = some it' ∧
            ∀ fuel, 2 - i < fuel → drain SortedPageIter.next fuel it' = some ([((⟨[1], 1⟩ : Key), Value.put [5]), ((⟨[2], 1⟩ : Key), Value.delete)].drop i) :=
  ⟨by decide, by decide, by decide, by decide,
    sortedPage_rank_seek [((⟨[1], 1⟩ : Key), Value.put [5]), ((⟨[2], 1⟩ : Key), Value.delete)] (by decide) (by decide) (by decide) (List.replicate 37 0) (by decide)⟩

end PhotonDb.Page
