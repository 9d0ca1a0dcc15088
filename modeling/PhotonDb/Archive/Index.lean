import PhotonDb.Archive.Data

/-! # Index pages of the archive tree

An inner node of the archive tree is a base page, `BaseIndex`, mapping separator keys to child
handles, under a chain of delta pages, `DeltaIndex`, each a list of `PageIndex` entries that
route a range `[lowest, highest)` to one child. `BaseIndex::get` routes a key to the child of
the greatest separator at most the key. Consolidation applies the delta's entries, oldest
first, to the base; we show that it routes every key as the chain does. A split of an index
page routes every key as the page did, but its right half also keeps the separator just below
its lowest key, which the left half keeps as well.
-/

namespace PhotonDb.Archive

set_option autoImplicit false

/-- Modelled from the spec: `PageId` is declared outside `src/`; the spec makes it a 64-bit
logical identifier. -/
abbrev PageId := UInt64

structure PageHandle where
  id : PageId
  epoch : UInt64
  deriving DecidableEq, Repr

/-- `size_of_val(&handle)` for a `PageHandle`: two 64-bit words. -/
def pageHandleSize : Nat := 16

structure PageIndex where
  lowest : Bytes
  highest : Bytes
  handle : PageHandle

structure BaseIndex where
  size : Nat
  lowest : Bytes
  highest : Bytes
  children : BTreeMap Bytes PageHandle

structure DeltaIndex where
  children : List PageIndex

/-- The closure of the `retain` in `BaseIndex::apply`,
`k <= lowest || (k >= highest && !highest.is_empty())`: keys outside `(lowest, highest)`. -/
def outsideRange (lowest highest key : Bytes) : Bool :=
  decide (key ≤ lowest) || (decide (highest ≤ key) && !highest.isEmpty)

namespace DeltaIndex

def new : DeltaIndex := ⟨[]⟩

def get (d : DeltaIndex) (key : Bytes) : Option PageHandle :=
  (d.children.find? fun index => inRange index.lowest index.highest key).map (·.handle)

def add (d : DeltaIndex) (index : PageIndex) : DeltaIndex := ⟨d.children ++ [index]⟩

def merge (d other : DeltaIndex) : DeltaIndex := ⟨d.children ++ other.children⟩

end DeltaIndex

/-- The delta a split posts on the left page: keys in `[middle, highest)` moved right. -/
structure SplitNode where
  lowest : Bytes
  middle : Bytes
  highest : Bytes
  rightPage : PageHandle

namespace BaseIndex

def new : BaseIndex := ⟨0, [], [], .empty⟩

def get (b : BaseIndex) (key : Bytes) : Option PageHandle := (b.children.floor key).map (·.2)

def add (b : BaseIndex) (key : Bytes) (value : PageHandle) : BaseIndex :=
  let inserted := b.children.insert key value
  { b with
    children := inserted.1
    size := match inserted.2 with
      | some _ => b.size + (key.length + pageHandleSize) - pageHandleSize
      | none => b.size + (key.length + pageHandleSize) }

/-- One turn of the loop of `apply`, which touches only the children: insert the index, or
renew the epoch of the child that already routes its lowest key to the same page; then remove
the separators in `(lowest, highest)`. -/
def applyIndex (children : BTreeMap Bytes PageHandle) (index : PageIndex) :
    BTreeMap Bytes PageHandle :=
  let children := match children.floor index.lowest with
    | some (key, handle) =>
      if handle.id = index.handle.id then
        (children.insert key { handle with epoch := index.handle.epoch }).1
      else (children.insert index.lowest index.handle).1
    | none => (children.insert index.lowest index.handle).1
  children.retain fun k _ => outsideRange index.lowest index.highest k

def apply (b : BaseIndex) (delta : DeltaIndex) : BaseIndex :=
  let children := delta.children.reverse.foldl applyIndex b.children
  { b with
    children
    size := children.entries.foldl (fun acc (k, _) => acc + k.length + pageHandleSize) 0 }

def splitChild (right : BaseIndex) : Bytes × PageHandle → BaseIndex
  | (key, value) =>
    { right with
      size := right.size + (key.length + pageHandleSize)
      children := (right.children.insert key value).1 }

/-- The right half is bounded below by the `(len + 1) / 2`-th key, but copies the children
from the one before it on. -/
def split (b : BaseIndex) : Option BaseIndex :=
  let nth := (b.children.len + 1) / 2
  match b.children.nthKey nth with
  | some key =>
    some ((b.children.entries.drop (nth - 1)).foldl splitChild
      { BaseIndex.new with lowest := key, highest := b.highest })
  | none => none

def retain (b : BaseIndex) (lowest highest : Bytes) : BaseIndex :=
  let children := b.children.retain fun k _ => inRange lowest highest k
  { lowest, highest, children
    size := children.entries.foldl (fun acc (k, _) => acc + k.length + pageHandleSize) 0 }

theorem applyIndex_eq (children : BTreeMap Bytes PageHandle) (index : PageIndex) :
    ∃ q, q ≤ index.lowest ∧ (∀ k, q < k → k ≤ index.lowest → children.get k = none) ∧
      (q = index.lowest ∨ (children.get q).map (·.id) = some index.handle.id) ∧
      applyIndex children index =
        (children.insert q index.handle).1.retain fun k _ =>
          outsideRange index.lowest index.highest k := by
  have hSelf : ∀ k, index.lowest < k → k ≤ index.lowest → children.get k = none :=
    fun k h₁ h₂ => absurd (h₁.trans_le h₂) (lt_irrefl _)
  unfold applyIndex
  cases hFloor : children.floor index.lowest with
  | none => exact ⟨_, le_rfl, hSelf, .inl rfl, rfl⟩
  | some e =>
    obtain ⟨key, handle⟩ := e
    obtain ⟨hGet, hLe, hGap⟩ := BTreeMap.floor_eq_some_iff.mp hFloor
    by_cases hId : handle.id = index.handle.id
    · have hHandle : { handle with epoch := index.handle.epoch } = index.handle := by
        cases handle
        simp only at hId
        subst hId
        rfl
      refine ⟨key, hLe, hGap, .inr (by simp [hGet, hId]), ?_⟩
      simp only [hId, if_true, hHandle]
    · exact ⟨_, le_rfl, hSelf, .inl rfl, by simp only [hId, if_false]⟩

section RemoveRange

variable {m : BTreeMap Bytes PageHandle} {lowest highest k : Bytes}

theorem get_removeRange_of_le (hk : k ≤ lowest) :
    (m.retain fun k _ => outsideRange lowest highest k).get k = m.get k :=
  BTreeMap.get_retain_of_true fun _ => by simp [outsideRange, hk]

theorem get_removeRange_of_ge (hHigh : highest ≠ []) (hk : highest ≤ k) :
    (m.retain fun k _ => outsideRange lowest highest k).get k = m.get k :=
  BTreeMap.get_retain_of_true fun _ => by simp [outsideRange, hk, hHigh]

theorem get_removeRange_of_mem (hLow : lowest < k) (hHigh : highest = [] ∨ k < highest) :
    (m.retain fun k _ => outsideRange lowest highest k).get k = none :=
  BTreeMap.get_retain_of_false fun _ => by
    rcases hHigh with hHigh | hHigh <;> simp [outsideRange, hLow, hHigh]

end RemoveRange

section Routing

variable {m : BTreeMap Bytes PageHandle} {e : PageIndex} {k : Bytes}

theorem floor_applyIndex_of_inRange (hk : inRange e.lowest e.highest k = true) :
    ((applyIndex m e).floor k).map (·.2) = some e.handle := by
  obtain ⟨hLow, hHigh⟩ := (inRange_iff _ _ _).mp hk
  obtain ⟨q, hq, hGap, -, hEq⟩ := applyIndex_eq m e
  have hFloor : (applyIndex m e).floor k = some (q, e.handle) := by
    rw [hEq]
    refine BTreeMap.floor_eq_some_iff.mpr ⟨?_, hq.trans hLow, fun k' hqk' hk' => ?_⟩
    · rw [get_removeRange_of_le hq, BTreeMap.get_insert, if_pos rfl]
    by_cases hBelow : k' ≤ e.lowest
    · rw [get_removeRange_of_le hBelow, BTreeMap.get_insert, if_neg (ne_of_gt hqk'),
        hGap k' hqk' hBelow]
    · exact get_removeRange_of_mem (not_le.mp hBelow) (hHigh.symm.imp_right hk'.trans_lt)
  rw [hFloor]
  rfl

theorem floor_applyIndex_of_ge (hBounds : e.lowest < e.highest) (hSep : m.get e.highest ≠ none)
    (hk : e.highest ≤ k) : (applyIndex m e).floor k = m.floor k := by
  have hHigh : e.highest ≠ [] := fun h => absurd hBounds (by rw [h]; exact not_lt.mpr List.nil_le)
  obtain ⟨q, hq, -, -, hEq⟩ := applyIndex_eq m e
  refine BTreeMap.floor_congr_above hk hSep fun k' hk' _ => ?_
  rw [hEq, get_removeRange_of_ge hHigh hk', BTreeMap.get_insert,
    if_neg (hq.trans_lt (hBounds.trans_le hk')).ne']

theorem floor_applyIndex_of_lt (hk : k < e.lowest) :
    ((applyIndex m e).floor k).map (·.2.id) = (m.floor k).map (·.2.id) := by
  obtain ⟨q, -, -, hq, hEq⟩ := applyIndex_eq m e
  refine BTreeMap.floor_map_congr PageHandle.id fun k' hk' => ?_
  have hBelow : k' < e.lowest := hk'.trans_lt hk
  rw [hEq, get_removeRange_of_le hBelow.le, BTreeMap.get_insert]
  by_cases hkq : k' = q
  · subst hkq
    rcases hq with hq | hq
    · exact absurd hq hBelow.ne
    · rw [if_pos rfl, hq]
      rfl
  · rw [if_neg hkq]

end Routing

end BaseIndex

theorem DeltaIndex.get_singleton (index : PageIndex) (key : Bytes) :
    (DeltaIndex.mk [index]).get key =
      if inRange index.lowest index.highest key then some index.handle else none := by
  by_cases h : inRange index.lowest index.highest key <;> simp [DeltaIndex.get, h]

open BaseIndex in
/-- Applying one delta entry routes every key to the page the chain routes it to, and from the
entry's lowest key on to the very same handle; below it only the epoch may change, where the
entry renewed the child before it. Applying a merged delta is applying its parts, older first. -/
theorem apply_routing (b : BaseIndex) (e : PageIndex)
    (hBounds : e.highest = [] ∨ e.lowest < e.highest)
    (hSep : e.highest = [] ∨ b.children.get e.highest ≠ none) :
    (∀ k, ((b.apply ⟨[e]⟩).get k).map (·.id) =
        (((DeltaIndex.mk [e]).get k).or (b.get k)).map (·.id) ∧
      (e.lowest ≤ k → (b.apply ⟨[e]⟩).get k = ((DeltaIndex.mk [e]).get k).or (b.get k))) ∧
    ∀ d₁ d₂ : DeltaIndex, (b.apply (d₁.merge d₂)).children = ((b.apply d₂).apply d₁).children := by
  have hGet : ∀ k, (b.apply ⟨[e]⟩).get k = ((applyIndex b.children e).floor k).map (·.2) :=
    fun k => rfl
  have hRoute : ∀ k, e.lowest ≤ k →
      (b.apply ⟨[e]⟩).get k = ((DeltaIndex.mk [e]).get k).or (b.get k) := by
    intro k hk
    rw [DeltaIndex.get_singleton, hGet]
    by_cases hIn : inRange e.lowest e.highest k
    · rw [if_pos hIn, floor_applyIndex_of_inRange hIn]
      rfl
    · -- at or above the entry's `highest`, a separator of the base
      have hOut : ¬ (k < e.highest ∨ e.highest = []) := fun h =>
        hIn ((inRange_iff _ _ _).mpr ⟨hk, h⟩)
      push_neg at hOut
      rw [if_neg hIn, Option.none_or, BaseIndex.get, floor_applyIndex_of_ge
        (hBounds.resolve_left hOut.2) (hSep.resolve_left hOut.2) hOut.1]
  refine ⟨fun k => ?_, fun d₁ d₂ => ?_⟩
  · by_cases hk : e.lowest ≤ k
    · exact ⟨by rw [hRoute k hk], fun _ => hRoute k hk⟩
    have hNotIn : ¬ inRange e.lowest e.highest k := fun h => hk ((inRange_iff _ _ _).mp h).1
    refine ⟨?_, fun h => absurd h hk⟩
    rw [DeltaIndex.get_singleton, if_neg hNotIn, Option.none_or, hGet, BaseIndex.get,
      Option.map_map, Option.map_map]
    exact floor_applyIndex_of_lt (not_le.mp hk)
  · simp [BaseIndex.apply, DeltaIndex.merge, List.reverse_append, List.foldl_append]

def twoChildIndex : BaseIndex := ⟨34, [], [], ⟨[([1], ⟨1, 0⟩), ([2], ⟨2, 0⟩)], by decide⟩⟩

def newChildEntry : PageIndex := ⟨[1, 5], [2], ⟨3, 1⟩⟩

theorem apply_routing_twoChildIndex :
    (newChildEntry.highest = [] ∨ newChildEntry.lowest < newChildEntry.highest) ∧
    (newChildEntry.highest = [] ∨ twoChildIndex.children.get newChildEntry.highest ≠ none) ∧
    (∀ k, ((twoChildIndex.apply ⟨[newChildEntry]⟩).get k).map (·.id) =
        (((DeltaIndex.mk [newChildEntry]).get k).or (twoChildIndex.get k)).map (·.id) ∧
      (newChildEntry.lowest ≤ k → (twoChildIndex.apply ⟨[newChildEntry]⟩).get k =
        ((DeltaIndex.mk [newChildEntry]).get k).or (twoChildIndex.get k))) ∧
    ∀ d₁ d₂ : DeltaIndex, (twoChildIndex.apply (d₁.merge d₂)).children =
      ((twoChildIndex.apply d₂).apply d₁).children :=
  ⟨by decide, by decide, apply_routing twoChildIndex newChildEntry (by decide) (by decide)⟩

namespace DeltaIndex

theorem get_cons (index : PageIndex) (rest : List PageIndex) (key : Bytes) :
    (DeltaIndex.mk (index :: rest)).get key =
      if inRange index.lowest index.highest key then some index.handle
      else (DeltaIndex.mk rest).get key := by
  by_cases h : inRange index.lowest index.highest key <;> simp [get, h]

theorem get_merge (d other : DeltaIndex) (key : Bytes) :
    (d.merge other).get key = (d.get key).or (other.get key) := by
  simp only [get, merge, List.find?_append, Option.map_or']

end DeltaIndex

namespace BaseIndex

/-- Each entry of `l`, applied to `children` last first, bounds a range that is open above or
non-empty, and its `highest` is a separator of the children it is applied to. -/
def Applicable (children : BTreeMap Bytes PageHandle) : List PageIndex → Prop
  | [] => True
  | e :: rest => Applicable children rest ∧ (e.highest = [] ∨ e.lowest < e.highest) ∧
      (e.highest = [] ∨ (rest.foldr (fun e m => applyIndex m e) children).get e.highest ≠ none)

instance applicableDecidable (children : BTreeMap Bytes PageHandle) :
    ∀ l, Decidable (Applicable children l)
  | [] => isTrue trivial
  | _ :: rest =>
    have := applicableDecidable children rest
    inferInstanceAs (Decidable (Applicable children rest ∧ _ ∧ _))

theorem apply_children (b : BaseIndex) (d : DeltaIndex) :
    (b.apply d).children = d.children.foldr (fun e m => applyIndex m e) b.children :=
  List.foldl_reverse _ _ _

theorem route_foldr_applyIndex (m : BTreeMap Bytes PageHandle) (l : List PageIndex)
    (hApp : Applicable m l) (k : Bytes) :
    ((l.foldr (fun e m => applyIndex m e) m).floor k).map (·.2.id) =
      (((DeltaIndex.mk l).get k).or ((m.floor k).map (·.2))).map (·.id) := by
  induction l with
  | nil => simp [DeltaIndex.get, Option.map_map]; rfl
  | cons e rest ih =>
    obtain ⟨hRest, hBounds, hSep⟩ := hApp
    rw [List.foldr_cons, DeltaIndex.get_cons]
    by_cases hIn : inRange e.lowest e.highest k = true
    · rw [if_pos hIn]
      have h := congrArg (Option.map PageHandle.id) (floor_applyIndex_of_inRange (m :=
        rest.foldr (fun e m => applyIndex m e) m) hIn)
      rw [Option.map_map] at h
      exact h
    rw [if_neg hIn, ← ih hRest]
    by_cases hLow : k < e.lowest
    · exact floor_applyIndex_of_lt hLow
    · -- at or above the entry's `highest`, a separator of the children it is applied to
      have hOut : ¬ (k < e.highest ∨ e.highest = []) := fun h =>
        hIn ((inRange_iff _ _ _).mpr ⟨not_lt.mp hLow, h⟩)
      push_neg at hOut
      rw [floor_applyIndex_of_ge (hBounds.resolve_left hOut.2) (hSep.resolve_left hOut.2) hOut.1]

end BaseIndex

/-- Modelled from the spec: the route of a delta chain of an index page, newest delta first.
The first delta with an entry covering the key decides, and the base routes the rest. -/
def chainRoute (deltas : List DeltaIndex) (b : BaseIndex) (key : Bytes) : Option PageHandle :=
  match deltas with
  | [] => b.get key
  | d :: rest =>
    match d.get key with
    | some handle => some handle
    | none => chainRoute rest b key

theorem chainRoute_cons (d : DeltaIndex) (rest : List DeltaIndex) (b : BaseIndex) (key : Bytes) :
    chainRoute (d :: rest) b key = (d.get key).or (chainRoute rest b key) := by
  cases h : d.get key <;> simp [chainRoute, h]

theorem DeltaIndex.get_foldl_merge (b : BaseIndex) (k : Bytes) (ds : List DeltaIndex)
    (acc : DeltaIndex) :
    ((ds.foldl DeltaIndex.merge acc).get k).or (b.get k) = (acc.get k).or (chainRoute ds b k) := by
  induction ds generalizing acc with
  | nil => rfl
  | cons d ds ih => rw [List.foldl_cons, ih, DeltaIndex.get_merge, chainRoute_cons, Option.or_assoc]

open BaseIndex in
/-- Consolidating an index chain `d :: ds` (newest first) merges the deltas into the head and
applies the result: when every entry's `highest` is a separator where it is applied, every key
is routed to the page the chain routes it to. -/
theorem consolidate_index_chainRoute (b : BaseIndex) (d : DeltaIndex) (ds : List DeltaIndex)
    (hApp : Applicable b.children (ds.foldl DeltaIndex.merge d).children) (k : Bytes) :
    ((b.apply (ds.foldl DeltaIndex.merge d)).get k).map (·.id) =
      (chainRoute (d :: ds) b k).map (·.id) := by
  have h := route_foldr_applyIndex _ _ hApp k
  rw [← apply_children] at h
  rw [chainRoute_cons, ← DeltaIndex.get_foldl_merge, BaseIndex.get, Option.map_map]
  exact h

def olderChildEntry : PageIndex := ⟨[1, 2], [2], ⟨4, 1⟩⟩

theorem consolidate_index_chainRoute_twoDeltas :
    BaseIndex.Applicable twoChildIndex.children
      ([DeltaIndex.mk [olderChildEntry]].foldl DeltaIndex.merge ⟨[newChildEntry]⟩).children ∧
    ∀ k, ((twoChildIndex.apply
        ([DeltaIndex.mk [olderChildEntry]].foldl DeltaIndex.merge ⟨[newChildEntry]⟩)).get k).map
          (·.id) =
      (chainRoute [⟨[newChildEntry]⟩, ⟨[olderChildEntry]⟩] twoChildIndex k).map (·.id) :=
  ⟨by decide, consolidate_index_chainRoute twoChildIndex ⟨[newChildEntry]⟩
    [⟨[olderChildEntry]⟩] (by decide)⟩

namespace BaseIndex

theorem foldl_splitChild (right : BaseIndex) (L : List (Bytes × PageHandle))
    (h : (right.children.entries ++ L).Pairwise (fun a b => a.1 < b.1)) :
    L.foldl splitChild right =
      { right with
        size := right.size + (L.map fun e => e.1.length + pageHandleSize).sum
        children := ⟨right.children.entries ++ L, h⟩ } := by
  induction L generalizing right with
  | nil => simp
  | cons e L ih =>
    obtain ⟨key, value⟩ := e
    have hAppend : (right.children.insert key value).1.entries =
        right.children.entries ++ [(key, value)] :=
      BTreeMap.insertEntry_of_lt fun x hx =>
        (List.pairwise_append.mp h).2.2 x hx _ (List.mem_cons_self _ _)
    rw [List.foldl_cons, ih _ (by simpa only [splitChild, hAppend, List.append_assoc] using h)]
    simp only [splitChild, hAppend, List.append_assoc, List.singleton_append, List.map_cons,
      List.sum_cons, Nat.add_assoc]

theorem split_eq_some {b r : BaseIndex} (h : b.split = some r) :
    ∃ e₀ v rest,
      b.children.entries.drop ((b.children.len + 1) / 2 - 1) = e₀ :: (r.lowest, v) :: rest ∧
      e₀.1 < r.lowest ∧ r.highest = b.highest ∧ r.children.entries = e₀ :: (r.lowest, v) :: rest ∧
      r.size = (r.children.entries.map fun e => e.1.length + pageHandleSize).sum := by
  unfold split at h
  cases hKey : b.children.nthKey ((b.children.len + 1) / 2) with
  | none => simp [hKey] at h
  | some key =>
    obtain ⟨v, rest, hDrop⟩ := BTreeMap.drop_of_nthKey_eq_some hKey
    have hLen : ¬ b.children.entries.length ≤ (b.children.len + 1) / 2 := fun hLe => by
      simp [BTreeMap.nthKey_eq_none_iff.mpr hLe] at hKey
    have hLen' : b.children.len = b.children.entries.length := rfl
    -- the middle child is not the first, so one comes before it
    have hPrev : b.children.entries.drop ((b.children.len + 1) / 2 - 1) =
        b.children.entries[(b.children.len + 1) / 2 - 1] :: (key, v) :: rest := by
      rw [List.drop_eq_getElem_cons (by omega), ← hDrop]
      congr 2
      omega
    have hSorted := b.children.sorted.sublist (List.drop_sublist ((b.children.len + 1) / 2 - 1) _)
    rw [hPrev, List.pairwise_cons] at hSorted
    simp only [hKey, Option.some.injEq] at h
    subst h
    rw [foldl_splitChild { BaseIndex.new with lowest := key, highest := b.highest } _
      (by rw [hPrev]; exact .cons hSorted.1 hSorted.2)]
    exact ⟨_, v, rest, hPrev, hSorted.1 _ (List.mem_cons_self _ _), rfl, hPrev, by
      simp only [hPrev, new, BTreeMap.empty, List.nil_append, Nat.zero_add]⟩

theorem get_retain_of_keysIn {b : BaseIndex} (hKeys : KeysIn b.children b.lowest b.highest)
    {highest k : Bytes} (hk : k < highest) :
    (b.retain b.lowest highest).children.get k = b.children.get k := by
  show (b.children.retain _).get k = _
  cases hGet : b.children.get k with
  | none => rw [BTreeMap.get_retain, hGet]; rfl
  | some w =>
    have hLow := ((inRange_iff _ _ _).mp (hKeys _ (BTreeMap.mem_entries_iff.mpr hGet))).1
    rw [BTreeMap.get_retain_of_true (k := k) (p := fun k _ => inRange b.lowest highest k)
      fun _ => (inRange_iff _ _ _).mpr ⟨hLow, .inl hk⟩, hGet]

end BaseIndex

open BaseIndex in
/-- A split routes every key as the page did: keys from the right half's lowest key on through
the right half, and the others through the page retained below it. -/
theorem split_routing (b : BaseIndex) (hKeys : KeysIn b.children b.lowest b.highest)
    (r : BaseIndex) (hr : b.split = some r) (k : Bytes) :
    (r.lowest ≤ k → r.get k = b.get k) ∧
      (k < r.lowest → (b.retain b.lowest r.lowest).get k = b.get k) := by
  obtain ⟨e₀, v, rest, hPrev, hBelow, -, hRight, -⟩ := split_eq_some hr
  set L := b.children.entries
  set i := (b.children.len + 1) / 2 - 1
  -- the right half starts one child early, but every child before that lies below it
  have hTake : ∀ k', r.lowest ≤ k' → BTreeMap.lookup k' (L.take i) = none :=
    fun k' hk' => BTreeMap.lookup_eq_none_of_ne fun x hx =>
      (((BTreeMap.lt_of_mem_take b.children.sorted hPrev hx).trans hBelow).trans_le hk').ne
  refine ⟨fun hk => ?_, fun hk => ?_⟩
  · have hMid : b.children.get r.lowest = some v := BTreeMap.mem_entries_iff.mp
      (List.mem_of_mem_drop (by rw [hPrev]; simp))
    have hFloor : r.children.floor k = b.children.floor k := by
      refine BTreeMap.floor_congr_above hk (by simp [hMid]) fun k' hk' _ => ?_
      show BTreeMap.lookup k' r.children.entries = BTreeMap.lookup k' L
      rw [hRight, ← hPrev, ← List.take_append_drop i L, BTreeMap.lookup_append, hTake k' hk',
        Option.none_or, List.take_append_drop]
    exact congrArg (Option.map (·.2)) hFloor
  · exact congrArg (Option.map (·.2)) (BTreeMap.floor_congr fun k' hk' =>
      get_retain_of_keysIn hKeys (hk'.trans_lt hk))

/-- Every split keeps, in both halves, the separator just below the right half's lowest key. -/
theorem split_keeps_separator_below (b : BaseIndex) (hKeys : KeysIn b.children b.lowest b.highest)
    (r : BaseIndex) (hr : b.split = some r) :
    ∃ key handle, key < r.lowest ∧ r.children.get key = some handle ∧
      (b.retain b.lowest r.lowest).children.get key = some handle := by
  obtain ⟨e₀, v, rest, hPrev, hBelow, -, hRight, -⟩ := BaseIndex.split_eq_some hr
  have hRightGet : r.children.get e₀.1 = some e₀.2 :=
    BTreeMap.mem_entries_iff.mp (by rw [hRight]; exact List.mem_cons_self _ _)
  have hGet : b.children.get e₀.1 = some e₀.2 :=
    BTreeMap.mem_entries_iff.mp (List.mem_of_mem_drop (by rw [hPrev]; exact List.mem_cons_self _ _))
  exact ⟨e₀.1, e₀.2, hBelow, hRightGet, by rw [BaseIndex.get_retain_of_keysIn hKeys hBelow, hGet]⟩

def twoChildRight : BaseIndex := ⟨34, [2], [], ⟨[([1], ⟨1, 0⟩), ([2], ⟨2, 0⟩)], by decide⟩⟩

theorem split_routing_twoChildIndex :
    KeysIn twoChildIndex.children twoChildIndex.lowest twoChildIndex.highest ∧
    twoChildIndex.split = some twoChildRight ∧
    ∀ k, (twoChildRight.lowest ≤ k → twoChildRight.get k = twoChildIndex.get k) ∧
      (k < twoChildRight.lowest →
        (twoChildIndex.retain twoChildIndex.lowest twoChildRight.lowest).get k = twoChildIndex.get k) :=
  ⟨by decide, rfl, split_routing twoChildIndex (by decide) twoChildRight rfl⟩

theorem split_twoChildIndex_duplicates :
    twoChildIndex.split = some twoChildRight ∧
      inRange twoChildRight.lowest twoChildRight.highest [1] = false ∧
      twoChildRight.children.get [1] = some ⟨1, 0⟩ ∧
      (twoChildIndex.retain twoChildIndex.lowest twoChildRight.lowest).children.get [1] =
        some ⟨1, 0⟩ :=
  ⟨rfl, by decide, by decide, by decide⟩

end PhotonDb.Archive
