import PhotonDb.Archive.Fences

/-! # Structure modifications keep reads

The tree consolidates a page's delta chain into a new base page, and splits a base page that
grew too large into the right half `split` returns and the left half `retain` keeps. Reads
survive both: each key from the page's `lowest` on reads, from the half that covers it, what
the delta chain read before the consolidation. The read of a half is the read of the page on
the keys of its range, so no assumption on where the page's keys lie is needed.

A split is published in two steps: a split delta `{middle, right_page}` on the page, which
sends readers of the keys from `middle` on to the right half, and then an index entry
`[middle, highest) → right_page` on the parent. Between and after the two steps every key of
the page's range reads what it read before the split.
-/

namespace PhotonDb.Archive

set_option autoImplicit false

namespace BaseData

theorem get_consolidated (b : BaseData) (d : DeltaData) (ds : List DeltaData) (k : Bytes) :
    (b.apply (ds.foldl DeltaData.merge d)).get k = chainRead (d :: ds) b k := by
  rw [get_apply, get_foldl_merge, chainRead_cons]

theorem get_retain (b : BaseData) (lowest highest k : Bytes) :
    (b.retain lowest highest).get k = if inRange lowest highest k then b.get k else none := by
  show (b.records.retain _).get k = _
  rw [BTreeMap.get_retain]
  by_cases h : inRange lowest highest k <;> cases hGet : b.records.get k <;>
    simp [Option.filter, h, get, hGet]

theorem get_split {b r : BaseData} (h : b.split = some r) (k : Bytes) :
    r.get k = if r.lowest ≤ k then b.get k else none := by
  obtain ⟨v, rest, hDrop, -, hRight, -⟩ := split_eq_some h
  have hSorted := b.records.sorted
  have hr : r.get k = BTreeMap.lookup k (b.records.entries.drop ((b.records.len + 1) / 2)) := by
    rw [← hRight]
    rfl
  rw [hr]
  split_ifs with hk
  · -- the records before the middle lie below `lowest`, hence below `k`
    have hTake := BTreeMap.lookup_eq_none_of_ne (k := k) fun x hx =>
      ((BTreeMap.lt_of_mem_take hSorted hDrop hx).trans_le hk).ne
    show _ = BTreeMap.lookup k b.records.entries
    rw [← List.take_append_drop ((b.records.len + 1) / 2) b.records.entries,
      BTreeMap.lookup_append, hTake, Option.none_or, List.take_append_drop]
  · exact BTreeMap.lookup_eq_none_of_ne fun x hx =>
      ((not_le.mp hk).trans_le (BTreeMap.le_of_mem_drop hSorted hDrop hx)).ne'

end BaseData

/-- Consolidating a data chain `d :: ds` and then splitting the consolidated page keeps every
read: each key from the page's `lowest` on reads what the chain read, from the right half
when it is at least the right half's `lowest`, and from the retained left half below it. -/
theorem consolidate_split_chainRead (b : BaseData) (d : DeltaData) (ds : List DeltaData)
    (r : BaseData) (hSplit : (b.apply (ds.foldl DeltaData.merge d)).split = some r) :
    (∀ k, r.lowest ≤ k → r.get k = chainRead (d :: ds) b k) ∧
      ∀ k, b.lowest ≤ k → k < r.lowest →
        ((b.apply (ds.foldl DeltaData.merge d)).retain b.lowest r.lowest).get k =
          chainRead (d :: ds) b k := by
  refine ⟨fun k hk => by rw [BaseData.get_split hSplit, if_pos hk, BaseData.get_consolidated],
    fun k hLow hk => ?_⟩
  rw [BaseData.get_retain, if_pos ((inRange_iff _ _ _).mpr ⟨hLow, .inl hk⟩),
    BaseData.get_consolidated]

def threeRecordRight : BaseData := ⟨2, [3], [], ⟨[([3], [30])], by decide⟩⟩

theorem consolidate_split_chainRead_threeRecords :
    (twoRecordPage.apply ([].foldl DeltaData.merge (DeltaData.new.add [3] (some [30])))).split =
      some threeRecordRight ∧
    (∀ k, threeRecordRight.lowest ≤ k →
      threeRecordRight.get k = chainRead [DeltaData.new.add [3] (some [30])] twoRecordPage k) ∧
    ∀ k, twoRecordPage.lowest ≤ k → k < threeRecordRight.lowest →
      ((twoRecordPage.apply ([].foldl DeltaData.merge (DeltaData.new.add [3] (some [30])))).retain
          twoRecordPage.lowest threeRecordRight.lowest).get k =
        chainRead [DeltaData.new.add [3] (some [30])] twoRecordPage k :=
  ⟨rfl, consolidate_split_chainRead twoRecordPage (DeltaData.new.add [3] (some [30])) []
    threeRecordRight rfl⟩

namespace BaseIndex

theorem get_split_of_le {b r : BaseIndex} (h : b.split = some r) {k : Bytes}
    (hk : r.lowest ≤ k) : r.get k = b.get k := by
  obtain ⟨e₀, v, rest, hPrev, hBelow, -, hRight, -⟩ := split_eq_some h
  -- the children before the one copied first lie below `lowest`
  have hTake : ∀ k', r.lowest ≤ k' → BTreeMap.lookup k'
      (b.children.entries.take ((b.children.len + 1) / 2 - 1)) = none :=
    fun k' hk' => BTreeMap.lookup_eq_none_of_ne fun x hx =>
      (((BTreeMap.lt_of_mem_take b.children.sorted hPrev hx).trans hBelow).trans_le hk').ne
  have hMid : b.children.get r.lowest = some v := BTreeMap.mem_entries_iff.mp
    (List.mem_of_mem_drop (by rw [hPrev]; simp))
  have hFloor : r.children.floor k = b.children.floor k := by
    refine BTreeMap.floor_congr_above hk (by simp [hMid]) fun k' hk' _ => ?_
    show BTreeMap.lookup k' r.children.entries = BTreeMap.lookup k' b.children.entries
    rw [hRight, ← hPrev, ← List.take_append_drop ((b.children.len + 1) / 2 - 1)
      b.children.entries, BTreeMap.lookup_append, hTake k' hk', Option.none_or,
      List.take_append_drop]
  exact congrArg (Option.map (·.2)) hFloor

theorem floor_retain_of_separatorsIn {m : BTreeMap Bytes PageHandle} {lowest highest : Bytes}
    (hSep : SeparatorsIn m lowest highest) {k cut : Bytes}
    (hk : inRange lowest highest k = true) (hCut : k < cut) :
    (m.retain fun k _ => inRange lowest cut k).floor k = m.floor k := by
  rcases (m.floor k).eq_none_or_eq_some with hFloor | ⟨e, hFloor⟩
  · refine BTreeMap.floor_congr fun k' hk' => ?_
    rw [BTreeMap.get_retain, BTreeMap.floor_eq_none_iff.mp hFloor k' hk']
    rfl
  · obtain ⟨hGet, hek, -⟩ := BTreeMap.floor_eq_some_iff.mp hFloor
    have heLow := ((inRange_iff _ _ _).mp (hSep.floor_inRange hk hFloor)).1
    refine BTreeMap.floor_congr_above hek (by simp [hGet]) fun k' hk' hk'k =>
      BTreeMap.get_retain_of_true fun _ => (inRange_iff _ _ _).mpr
        ⟨heLow.trans hk', .inl (hk'k.trans_lt hCut)⟩

end BaseIndex

open BaseIndex in
/-- Consolidating an index chain `d :: ds` and then splitting the consolidated page keeps the
routing: each key from the page's `lowest` on is routed to the page the chain routes it to,
through the right half when it is at least the right half's `lowest`, and through the
retained left half below it. This holds when the base's separators are in its range, every
delta entry's `lowest` lies in it, and the entries apply as in `consolidate_index_chainRoute`'s
hypothesis. -/
theorem consolidate_split_chainRoute (b : BaseIndex) (d : DeltaIndex) (ds : List DeltaIndex)
    (hSep : SeparatorsIn b.children b.lowest b.highest)
    (hApp : Applicable b.children (ds.foldl DeltaIndex.merge d).children)
    (hLow : ∀ e ∈ (ds.foldl DeltaIndex.merge d).children, inRange b.lowest b.highest e.lowest = true)
    (r : BaseIndex) (hSplit : (b.apply (ds.foldl DeltaIndex.merge d)).split = some r) :
    (∀ k, r.lowest ≤ k → (r.get k).map (·.id) = (chainRoute (d :: ds) b k).map (·.id)) ∧
      ∀ k, b.lowest ≤ k → k < r.lowest →
        (((b.apply (ds.foldl DeltaIndex.merge d)).retain b.lowest r.lowest).get k).map (·.id) =
          (chainRoute (d :: ds) b k).map (·.id) := by
  set c := b.apply (ds.foldl DeltaIndex.merge d) with hc
  have hRoute : ∀ k, (c.get k).map (·.id) = (chainRoute (d :: ds) b k).map (·.id) := fun k => by
    have h := route_foldr_applyIndex _ _ hApp k
    rw [← apply_children] at h
    rw [chainRoute_cons, ← DeltaIndex.get_foldl_merge, BaseIndex.get, Option.map_map]
    exact h
  have hSepC : SeparatorsIn c.children b.lowest b.highest := by
    rw [hc, apply_children]
    exact hSep.foldr_applyIndex _ hLow
  refine ⟨fun k hk => by rw [get_split_of_le hSplit hk, hRoute], fun k hk hCut => ?_⟩
  -- the right half's `lowest` is a separator of the page, so it lies below `highest`
  obtain ⟨e₀, v, rest, hPrev, -, -, -, -⟩ := split_eq_some hSplit
  have hMid : c.children.get r.lowest ≠ none := by
    rw [BTreeMap.mem_entries_iff.mp (List.mem_of_mem_drop (by rw [hPrev]; simp) :
      (r.lowest, v) ∈ c.children.entries)]
    exact Option.some_ne_none v
  have hkIn : inRange b.lowest b.highest k = true := (inRange_iff _ _ _).mpr
    ⟨hk, (hSepC.below_highest _ hMid).imp_left hCut.trans⟩
  rw [← hRoute k]
  exact congrArg (fun f => Option.map (·.id) (Option.map (·.2) f))
    (floor_retain_of_separatorsIn hSepC hkIn hCut)

def consolidatedRight : BaseIndex := ⟨35, [2], [], ⟨[([1, 5], ⟨3, 1⟩), ([2], ⟨2, 0⟩)], by decide⟩⟩

theorem consolidate_split_chainRoute_twoChildIndex :
    BaseIndex.SeparatorsIn twoChildIndex.children twoChildIndex.lowest twoChildIndex.highest ∧
    BaseIndex.Applicable twoChildIndex.children
      ([].foldl DeltaIndex.merge (DeltaIndex.mk [newChildEntry])).children ∧
    (∀ e ∈ ([].foldl DeltaIndex.merge (DeltaIndex.mk [newChildEntry])).children,
      inRange twoChildIndex.lowest twoChildIndex.highest e.lowest = true) ∧
    (twoChildIndex.apply ([].foldl DeltaIndex.merge (DeltaIndex.mk [newChildEntry]))).split =
      some consolidatedRight ∧
    (∀ k, consolidatedRight.lowest ≤ k → (consolidatedRight.get k).map (·.id) =
      (chainRoute [DeltaIndex.mk [newChildEntry]] twoChildIndex k).map (·.id)) ∧
    ∀ k, twoChildIndex.lowest ≤ k → k < consolidatedRight.lowest →
      (((twoChildIndex.apply ([].foldl DeltaIndex.merge (DeltaIndex.mk [newChildEntry]))).retain
        twoChildIndex.lowest consolidatedRight.lowest).get k).map (·.id) =
          (chainRoute [DeltaIndex.mk [newChildEntry]] twoChildIndex k).map (·.id) :=
  ⟨BaseIndex.separatorsIn_of_keysIn (by decide), by decide, by decide, rfl,
    consolidate_split_chainRoute twoChildIndex (DeltaIndex.mk [newChildEntry]) []
      (BaseIndex.separatorsIn_of_keysIn (by decide)) (by decide) (by decide) consolidatedRight rfl⟩

end PhotonDb.Archive
