import PhotonDb.Engine.RoundTrip
import PhotonDb.Page.Rank

/-! # `seek` and `seek_back` of the engine sorted page

The engine `rank` is the binary search of `page/sorted_page.rs` with `Ok` and `Err` merged:
both searches probe the same midpoints, the engine comparing the target with the key where the
old page compares the key with the target, and the engine returns the index the old result
wraps. So what `Page.SortedPageRef.rank_ofItems` shows of the old search carries over. `seek`
reads the entry at that index and `seek_back` walks down from it to the first entry no greater
than the target. On a page whose keys are sorted they return an entry with the least key no
less than the target and one with the greatest key no greater, and the first and the last such
entry when the target is no key. When the target is a repeated key, `rank` stops at whichever
copy it probes first, which need be neither the first nor the last.
-/

namespace PhotonDb.Engine

open PhotonDb.Page (PrefixCodec Valid bytes entryBytes encodedItems decodeFrom key_le_of_le)
open PhotonDb.Page.SortedPageRef (RankResult)

set_option autoImplicit false

variable {K V : Type}

theorem find?_eq_getElem? {α : Type} (p : α → Bool) (l : List α) (r : Nat) (hr : r ≤ l.length)
    (hBefore : ∀ j (h : j < l.length), j < r → p l[j] = false)
    (hAt : ∀ h : r < l.length, p l[r] = true) : l.find? p = l[r]? := by
  induction l generalizing r with
  | nil => rfl
  | cons a l ih =>
    cases r with
    | zero =>
      have hA : p a = true := hAt (by simp)
      simp [List.find?_cons, hA]
    | succ r =>
      have hA : p a = false := hBefore 0 (by simp) (by omega)
      simp only [List.find?_cons, hA, List.getElem?_cons_succ]
      exact ih r (by simpa using hr) (fun j hj hjr => hBefore (j + 1) (by simpa using hj)
        (by omega)) (fun h => hAt (by simpa using h))

theorem find?_reverse_take {α : Type} (p : α → Bool) (l : List α) (m : Nat)
    (hAfter : ∀ j (h : j < l.length), m ≤ j → p l[j] = false) :
    (l.take m).reverse.find? p = l.reverse.find? p := by
  conv_rhs => rw [← List.take_append_drop m l, List.reverse_append, List.find?_append]
  have hNone : (l.drop m).reverse.find? p = none := by
    rw [List.find?_eq_none]
    intro x hx
    obtain ⟨j, hj, rfl⟩ := List.getElem_of_mem (List.mem_reverse.mp hx)
    rw [List.getElem_drop]
    simpa using hAfter (m + j) (by simp at hj; omega) (by omega)
  simp [hNone]

section Sorted

variable [LinearOrder K] {E : List (K × V)}

theorem find?_key_le (hSorted : (E.map Prod.fst).Sorted (· ≤ ·)) {p : K × V → Bool}
    {b x : K × V} (hFind : E.find? p = some b) (hx : x ∈ E) (hp : p x = true) : b.1 ≤ x.1 := by
  obtain ⟨-, as, bs, rfl, hAs⟩ := List.find?_eq_some.mp hFind
  rw [List.Sorted, List.pairwise_map, List.pairwise_append] at hSorted
  rcases List.mem_append.mp hx with hx | hx
  · exact absurd (hAs x hx) (by simp [hp])
  · rcases List.mem_cons.mp hx with rfl | hx
    · exact le_rfl
    · exact List.rel_of_pairwise_cons hSorted.2.1 hx

theorem find?_reverse_key_le (hSorted : (E.map Prod.fst).Sorted (· ≤ ·)) {p : K × V → Bool}
    {b x : K × V} (hFind : E.reverse.find? p = some b) (hx : x ∈ E) (hp : p x = true) :
    x.1 ≤ b.1 := by
  obtain ⟨-, as, bs, hRev, hAs⟩ := List.find?_eq_some.mp hFind
  rw [← List.reverse_reverse E, hRev, List.reverse_append, List.reverse_cons,
    List.append_assoc, List.singleton_append] at hSorted hx
  rw [List.Sorted, List.pairwise_map, List.pairwise_append] at hSorted
  rcases List.mem_append.mp hx with hx | hx
  · exact hSorted.2.2 x hx b (List.mem_cons_self _ _)
  · rcases List.mem_cons.mp hx with rfl | hx
    · exact le_rfl
    · exact absurd hp (by simpa using hAs x (List.mem_reverse.mp hx))

theorem eq_of_map_fst_eq (hStrict : (E.map Prod.fst).Sorted (· < ·)) {o f : Option (K × V)}
    (ho : ∀ e ∈ o, e ∈ E) (hf : ∀ e ∈ f, e ∈ E) (h : o.map Prod.fst = f.map Prod.fst) : o = f := by
  cases o <;> cases f <;> simp only [Option.map_none', Option.map_some',
    reduceCtorEq, Option.some.injEq] at h ⊢
  exact List.inj_on_of_nodup_map hStrict.nodup (ho _ rfl) (hf _ rfl) h

end Sorted

/-- The index the old `seek` takes from `rank`: `Ok(i) => i, Err(i) => i`. -/
def rankIndex : Except Nat Nat → Nat
  | .ok i => i
  | .error i => i

section RankIndex

variable [LinearOrder K] {E : List (K × V)} {target : K} {r : Except Nat Nat}

theorem rankIndex_le (h : RankResult E target r) : rankIndex r ≤ E.length := by
  cases r with
  | ok i => exact h.1.le
  | error i => exact h.1

theorem rankIndex_of_strict (hStrict : (E.map Prod.fst).Sorted (· < ·)) (h : RankResult E target r) :
    (∀ j (hj : j < E.length), j < rankIndex r → E[j].1 < target) ∧
    (∀ j (hj : j < E.length), rankIndex r < j → target < E[j].1) ∧
    (∀ hr : rankIndex r < E.length, target ≤ E[rankIndex r].1) := by
  have hLt : ∀ i j (hi : i < E.length) (hj : j < E.length), i < j → E[i].1 < E[j].1 := by
    intro i j hi hj hij
    simpa using hStrict.rel_get_of_lt (a := ⟨i, by simpa using hi⟩) (b := ⟨j, by simpa using hj⟩) hij
  cases r with
  | ok i =>
    obtain ⟨hr, hEq⟩ := h
    exact ⟨fun j hj hjr => hEq ▸ hLt j i hj hr hjr, fun j hj hrj => hEq ▸ hLt i j hr hj hrj,
      fun _ => hEq.ge⟩
  | error i =>
    obtain ⟨-, hBelow, hAbove⟩ := h
    exact ⟨hBelow, fun j hj hrj => hAbove j hj hrj.le, fun hr => (hAbove i hr le_rfl).le⟩

end RankIndex

namespace SortedPageRef

section Agreement

variable [PrefixCodec K] [PrefixCodec V] {E : List (K × V)}

theorem key_ofItems (E : List (K × V)) (hValid : ∀ e ∈ E, Valid e.1 ∧ Valid e.2) (i : Nat)
    (h : i < E.length) :
    ∃ offset dec rest, (ofItems (encodedItems E) : SortedPageRef K V).offsets[i]? = some offset ∧
      (ofItems (encodedItems E) : SortedPageRef K V).contentAt offset = some dec ∧
      (decodeFrom dec : Option (K × PhotonDb.Page.Decoder)) = some (E[i].1, rest) := by
  obtain ⟨offset, hOffset, -, hAt⟩ :=
    contentAt_ofItems (K := K) (V := V) (encodedItems E) i (by simpa using h)
  refine ⟨offset, _, ⟨bytes E[i].2 ++ ((encodedItems E).drop (i + 1)).flatten⟩, hOffset, hAt, ?_⟩
  simp [encodedItems, entryBytes, List.append_assoc,
    PhotonDb.Page.decodeFrom_bytes_append _ _ (hValid _ (List.getElem_mem h)).1]

/-- Both searches run to the end on the pages of `E`, and the engine returns the index of
the old result. -/
theorem rankLoop_ofItems_agree [LinearOrder K] (hValid : ∀ e ∈ E, Valid e.1 ∧ Valid e.2)
    (target : K) (left right : Nat) (hRight : right ≤ E.length) :
    ∃ r, (Page.SortedPageRef.ofItems (encodedItems E) : Page.SortedPageRef K V).rankLoop target
        left right = some r ∧
      (ofItems (encodedItems E) : SortedPageRef K V).rankLoop target left right =
        some (rankIndex r) := by
  obtain ⟨width, hWidth⟩ : ∃ width, right - left = width := ⟨_, rfl⟩
  induction width using Nat.strong_induction_on generalizing left right with
  | h width ih =>
    rw [Page.SortedPageRef.rankLoop, rankLoop]
    by_cases hLt : left < right
    · have hMid : (left + right) / 2 < E.length := by omega
      obtain ⟨hItem, hKeyOld⟩ := Page.SortedPageRef.item_key_ofItems E hValid _ hMid
      obtain ⟨offset, dec, rest, hOffset, hAt, hKey⟩ := key_ofItems E hValid _ hMid
      simp only [dif_pos hLt, hItem, hKeyOld, hOffset, hAt, hKey, Option.bind_eq_bind,
        Option.some_bind]
      rcases lt_trichotomy E[(left + right) / 2].1 target with hCmp | hCmp | hCmp
      · simp only [compare_lt_iff_lt.mpr hCmp, compare_gt_iff_gt.mpr hCmp]
        exact ih _ (by omega) _ _ hRight rfl
      · have hSelf : compare target target = .eq := compare_eq_iff_eq.mpr rfl
        simp only [hCmp, hSelf]
        exact ⟨_, rfl, rfl⟩
      · simp only [compare_gt_iff_gt.mpr hCmp, compare_lt_iff_lt.mpr hCmp]
        exact ih _ (by omega) _ _ (by omega) rfl
    · simp only [dif_neg hLt]
      exact ⟨_, rfl, rfl⟩

theorem rank_ofItems_agree [LinearOrder K] (hValid : ∀ e ∈ E, Valid e.1 ∧ Valid e.2)
    (target : K) :
    ∃ r, (Page.SortedPageRef.ofItems (encodedItems E) : Page.SortedPageRef K V).rank target =
        some r ∧
      (ofItems (encodedItems E) : SortedPageRef K V).rank target = some (rankIndex r) := by
  simpa [Page.SortedPageRef.rank, rank] using rankLoop_ofItems_agree hValid target 0 E.length le_rfl

end Agreement

variable [PrefixCodec K] [PrefixCodec V]

theorem get_ofItems_getElem? (E : List (K × V)) (hValid : ∀ e ∈ E, Valid e.1 ∧ Valid e.2)
    (i : Nat) : (ofItems (encodedItems E) : SortedPageRef K V).get i = some E[i]? := by
  by_cases hi : i < E.length
  · rw [get_ofItems E hValid i hi, List.getElem?_eq_getElem hi]
  · rw [get_ofItems_of_le E i (by omega), List.getElem?_eq_none (by omega)]

theorem seekBackAt_range [LinearOrder K] (E : List (K × V))
    (hValid : ∀ e ∈ E, Valid e.1 ∧ Valid e.2) (target : K) (m : Nat) :
    (ofItems (encodedItems E) : SortedPageRef K V).seekBackAt target (List.range m).reverse =
      some ((E.take m).reverse.find? fun e => e.1 ≤ target) := by
  induction m with
  | zero => rfl
  | succ m ih =>
    rw [List.range_succ, List.reverse_append, List.reverse_singleton, List.singleton_append,
      seekBackAt]
    by_cases hm : m < E.length
    · have hTake : (E.take (m + 1)).reverse = E[m] :: (E.take m).reverse := by
        rw [List.take_succ, List.getElem?_eq_getElem hm]; simp
      rw [get_ofItems E hValid m hm, hTake]
      by_cases hKey : E[m].1 ≤ target <;> simp [hKey, ih]
    · have hTake : E.take (m + 1) = E.take m := by
        rw [List.take_of_length_le (by omega), List.take_of_length_le (by omega)]
      rw [get_ofItems_of_le E m (by omega), hTake]
      simpa using ih

variable [LinearOrder K]

/-- The engine search returns the index of the old one, so it ends and returns what the old
search is shown to return. -/
theorem rank_ofItems (E : List (K × V)) (hValid : ∀ e ∈ E, Valid e.1 ∧ Valid e.2)
    (hSorted : (E.map Prod.fst).Sorted (· ≤ ·)) (target : K) :
    ∃ r, (ofItems (encodedItems E) : SortedPageRef K V).rank target = some (rankIndex r) ∧
      RankResult E target r := by
  obtain ⟨r, hOld, hNew⟩ := rank_ofItems_agree (K := K) (V := V) hValid target
  obtain ⟨r', hOld', hResult⟩ := Page.SortedPageRef.rank_ofItems (V := V) E hValid hSorted target
  obtain rfl : r = r' := Option.some.inj (hOld.symm.trans hOld')
  exact ⟨r, hNew, hResult⟩

theorem seek_ofItems (E : List (K × V)) (hValid : ∀ e ∈ E, Valid e.1 ∧ Valid e.2)
    (hSorted : (E.map Prod.fst).Sorted (· ≤ ·)) (target : K) :
    ∃ o, (ofItems (encodedItems E) : SortedPageRef K V).seek target = some o ∧
      (∀ e ∈ o, e ∈ E) ∧ o.map Prod.fst = (E.find? fun e => target ≤ e.1).map Prod.fst ∧
      ((∀ e ∈ E, e.1 ≠ target) → o = E.find? fun e => target ≤ e.1) := by
  obtain ⟨r, hRank, hResult⟩ := rank_ofItems E hValid hSorted target
  rw [seek, hRank, Option.bind_eq_bind, Option.some_bind, get_ofItems_getElem? E hValid]
  refine ⟨_, rfl, fun e he => List.getElem?_mem he, ?_⟩
  cases r with
  | ok i =>
    -- the key at `i` is the target, so the first entry no less than it has the same key
    obtain ⟨hi, hEq⟩ := hResult
    have hSome : (E.find? fun e => target ≤ e.1).isSome :=
      List.find?_isSome.mpr ⟨E[i], List.getElem_mem hi, by simp [hEq]⟩
    obtain ⟨b, hFind⟩ := Option.isSome_iff_exists.mp hSome
    have hb : target ≤ b.1 := by simpa using List.find?_some hFind
    have hbi := find?_key_le hSorted hFind (List.getElem_mem hi) (by simp [hEq])
    refine ⟨?_, fun hNo => absurd hEq (hNo _ (List.getElem_mem hi))⟩
    simp only [rankIndex, List.getElem?_eq_getElem hi, hFind, Option.map_some', Option.some.injEq]
    exact le_antisymm (hEq.trans_le hb) hbi
  | error i =>
    -- `i` is the insertion point: the first entry no less than the target
    obtain ⟨hLe, hBelow, hAbove⟩ := hResult
    have hFind : E.find? (fun e => target ≤ e.1) = E[i]? :=
      find?_eq_getElem? _ E i hLe (fun j hj hji => by simpa using hBelow j hj hji)
        (fun hi => by simpa using (hAbove i hi le_rfl).le)
    exact ⟨by rw [rankIndex, hFind], fun _ => hFind.symm⟩

theorem seekBack_ofItems (E : List (K × V)) (hValid : ∀ e ∈ E, Valid e.1 ∧ Valid e.2)
    (hSorted : (E.map Prod.fst).Sorted (· ≤ ·)) (target : K) :
    ∃ o, (ofItems (encodedItems E) : SortedPageRef K V).seekBack target = some o ∧
      (∀ e ∈ o, e ∈ E) ∧ o.map Prod.fst = (E.reverse.find? fun e => e.1 ≤ target).map Prod.fst ∧
      ((∀ e ∈ E, e.1 ≠ target) → o = E.reverse.find? fun e => e.1 ≤ target) := by
  obtain ⟨r, hRank, hResult⟩ := rank_ofItems E hValid hSorted target
  rw [seekBack, hRank, Option.bind_eq_bind, Option.some_bind, seekBackAt_range E hValid]
  refine ⟨_, rfl, fun e he => List.mem_of_mem_take (List.mem_reverse.mp
    (List.mem_of_find?_eq_some he)), ?_⟩
  cases r with
  | ok i =>
    -- the walk stops at once at `i`, whose key is the target
    obtain ⟨hi, hEq⟩ := hResult
    have hTake : (E.take (i + 1)).reverse = E[i] :: (E.take i).reverse := by
      rw [List.take_succ, List.getElem?_eq_getElem hi]; simp
    have hSome : (E.reverse.find? fun e => e.1 ≤ target).isSome :=
      List.find?_isSome.mpr ⟨E[i], List.mem_reverse.mpr (List.getElem_mem hi), by simp [hEq]⟩
    obtain ⟨b, hFind⟩ := Option.isSome_iff_exists.mp hSome
    have hb : b.1 ≤ target := by simpa using List.find?_some hFind
    have hib := find?_reverse_key_le hSorted hFind (List.getElem_mem hi) (by simp [hEq])
    refine ⟨?_, fun hNo => absurd hEq (hNo _ (List.getElem_mem hi))⟩
    rw [rankIndex, hTake, List.find?_cons_of_pos _ (by simp [hEq]), hFind]
    exact congrArg some (le_antisymm hib (hb.trans_eq hEq.symm))
  | error i =>
    -- past the insertion point every key is above the target
    obtain ⟨-, -, hAbove⟩ := hResult
    have hFind := find?_reverse_take (fun e => decide (e.1 ≤ target)) E (i + 1)
      (fun j hj hij => by simpa using hAbove j hj (by omega))
    exact ⟨by rw [rankIndex, hFind], fun _ => hFind⟩

end SortedPageRef

def zeroAlloc (size : Nat) : Except String Bytes := .ok (List.replicate size 0)

/-- On a page built from entries sorted by key, `rank` ends at an index no greater than
`len()`. `seek` returns an entry with the least key no less than the target, and `seek_back`
one with the greatest key no greater. When the target is no key these are the first and the
last such entry, and when the keys strictly increase they always are. -/
theorem engine_seek_seekBack {ε : Type} [PrefixCodec K] [PrefixCodec V] [LinearOrder K]
    (E : List (K × V)) (hValid : ∀ e ∈ E, Valid e.1 ∧ Valid e.2)
    (hSorted : (E.map Prod.fst).Sorted (· ≤ ·))
    (hSize : (SortedPageBuilder.new.addAll E).size < 2 ^ 32)
    (alloc : Nat → Except ε Bytes) (ptr : Bytes)
    (hAlloc : alloc (SortedPageBuilder.new.addAll E).size = .ok ptr)
    (hPtr : ptr.length = (SortedPageBuilder.new.addAll E).size) :
    ∃ (buf : SortedPageBuf) (page : SortedPageRef K V),
      SortedPageBuilder.new.buildFromIter alloc E = some (.ok buf) ∧ buf.asRef = some page ∧
      ∀ target : K, (∃ i, page.rank target = some i ∧ i ≤ page.len) ∧
        (∃ o, page.seek target = some o ∧ (∀ e ∈ o, e ∈ E) ∧
          o.map Prod.fst = (E.find? fun e => target ≤ e.1).map Prod.fst ∧
          ((∀ e ∈ E, e.1 ≠ target) → o = E.find? fun e => target ≤ e.1)) ∧
        (∃ o, page.seekBack target = some o ∧ (∀ e ∈ o, e ∈ E) ∧
          o.map Prod.fst = (E.reverse.find? fun e => e.1 ≤ target).map Prod.fst ∧
          ((∀ e ∈ E, e.1 ≠ target) → o = E.reverse.find? fun e => e.1 ≤ target)) ∧
        ((E.map Prod.fst).Sorted (· < ·) →
          page.seek target = some (E.find? fun e => target ≤ e.1) ∧
          page.seekBack target = some (E.reverse.find? fun e => e.1 ≤ target)) := by
  rw [size_addAll_new] at hSize
  refine ⟨_, SortedPageRef.ofItems (encodedItems E), buildFromIter_new E alloc ptr hAlloc hPtr,
    by simpa [SortedPageBuf.asRef] using SortedPageRef.new_layout (K := K) (V := V) _ hSize,
    fun target => ?_⟩
  obtain ⟨r, hRank, hResult⟩ := SortedPageRef.rank_ofItems E hValid hSorted target
  obtain ⟨o, hSeek, hMem, hKey, hNoKey⟩ := SortedPageRef.seek_ofItems E hValid hSorted target
  obtain ⟨o', hSeekBack, hMem', hKey', hNoKey'⟩ :=
    SortedPageRef.seekBack_ofItems E hValid hSorted target
  refine ⟨⟨_, hRank, by simpa using rankIndex_le hResult⟩, ⟨o, hSeek, hMem, hKey, hNoKey⟩,
    ⟨o', hSeekBack, hMem', hKey', hNoKey'⟩, fun hStrict => ⟨?_, ?_⟩⟩
  · rw [hSeek, eq_of_map_fst_eq hStrict hMem (fun _ he => List.mem_of_find?_eq_some he) hKey]
  · rw [hSeekBack, eq_of_map_fst_eq hStrict hMem'
      (fun _ he => List.mem_reverse.mp (List.mem_of_find?_eq_some he)) hKey']

def runOfOnes : List (Bytes × Bytes) := [([1], [0]), ([1], [1]), ([1], [2])]

theorem engine_seek_seekBack_runOfOnes :
    (∀ e ∈ runOfOnes, Valid e.1 ∧ Valid e.2) ∧ (runOfOnes.map Prod.fst).Sorted (· ≤ ·) ∧
    (SortedPageBuilder.new.addAll runOfOnes).size < 2 ^ 32 ∧
    zeroAlloc (SortedPageBuilder.new.addAll runOfOnes).size = .ok (List.replicate 42 0) ∧
    (List.replicate 42 0).length = (SortedPageBuilder.new.addAll runOfOnes).size ∧
    ∃ (buf : SortedPageBuf) (page : SortedPageRef Bytes Bytes),
      SortedPageBuilder.new.buildFromIter zeroAlloc runOfOnes = some (.ok buf) ∧
      buf.asRef = some page ∧
      ∀ target : Bytes, (∃ i, page.rank target = some i ∧ i ≤ page.len) ∧
        (∃ o, page.seek target = some o ∧ (∀ e ∈ o, e ∈ runOfOnes) ∧
          o.map Prod.fst = (runOfOnes.find? fun e => target ≤ e.1).map Prod.fst ∧
          ((∀ e ∈ runOfOnes, e.1 ≠ target) → o = runOfOnes.find? fun e => target ≤ e.1)) ∧
        (∃ o, page.seekBack target = some o ∧ (∀ e ∈ o, e ∈ runOfOnes) ∧
          o.map Prod.fst = (runOfOnes.reverse.find? fun e => e.1 ≤ target).map Prod.fst ∧
          ((∀ e ∈ runOfOnes, e.1 ≠ target) →
            o = runOfOnes.reverse.find? fun e => e.1 ≤ target)) ∧
        ((runOfOnes.map Prod.fst).Sorted (· < ·) →
          page.seek target = some (runOfOnes.find? fun e => target ≤ e.1) ∧
          page.seekBack target = some (runOfOnes.reverse.find? fun e => e.1 ≤ target)) :=
  ⟨by decide, by decide, by decide, rfl, by decide,
    engine_seek_seekBack runOfOnes (by decide) (by decide) (by decide) zeroAlloc _ rfl
      (by decide)⟩

/-- On the run of equal keys, `rank` stops at the middle copy, so `seek` and `seek_back`
return it rather than the first and the last entry. -/
theorem engine_seek_duplicateKeys :
    (runOfOnes.map Prod.fst).Sorted (· ≤ ·) ∧
    ∃ (buf : SortedPageBuf) (page : SortedPageRef Bytes Bytes),
      SortedPageBuilder.new.buildFromIter zeroAlloc runOfOnes = some (.ok buf) ∧
      buf.asRef = some page ∧
      page.seek [1] = some (some ([1], [1])) ∧
      runOfOnes.find? (fun e => [1] ≤ e.1) = some ([1], [0]) ∧
      page.seekBack [1] = some (some ([1], [1])) ∧
      runOfOnes.reverse.find? (fun e => e.1 ≤ [1]) = some ([1], [2]) := by
  refine ⟨by decide, _, SortedPageRef.ofItems (encodedItems runOfOnes),
    buildFromIter_new runOfOnes zeroAlloc (List.replicate 42 0) rfl (by decide),
    by simpa [SortedPageBuf.asRef] using
      SortedPageRef.new_layout (K := Bytes) (V := Bytes) (encodedItems runOfOnes) (by decide),
    ?_, by decide, ?_, by decide⟩
  · rw [SortedPageRef.seek, SortedPageRef.rank, SortedPageRef.rankLoop]
    decide
  · rw [SortedPageRef.seekBack, SortedPageRef.rank, SortedPageRef.rankLoop]
    decide

end PhotonDb.Engine
