import PhotonDb.Archive.Index

/-! # Size accounting of base pages

`BaseData` and `BaseIndex` keep a running `size`, meant as the bytes of their entries:
`key.len() + value.len()` per record, `key.len() + size_of_val(handle)` per child. `retain`,
`split` and `BaseIndex::apply` recompute it from the entries. `BaseData::apply` and
`BaseIndex::add` update it in place, and on an overwrite they take back the replaced value but
not its key, which the new entry counts again. So the size never falls below the entries'
bytes, and no subtraction goes below zero, but after an overwrite the size exceeds them.
-/

namespace PhotonDb.Archive

set_option autoImplicit false

namespace BaseData

/-- `key.len() + value.len()` summed over the records. -/
def recordsSize (records : BTreeMap Bytes Bytes) : Nat :=
  BTreeMap.weight (fun key value => key.length + value.length) records

def ApplyRecordFits (b : BaseData) : Bytes × Option Bytes → Prop
  | (key, some value) =>
    ∀ old, b.records.get key = some old → old.length ≤ b.size + (key.length + value.length)
  | (key, none) => ∀ old, b.records.get key = some old → key.length + old.length ≤ b.size

/-- No subtraction of a run of `apply`'s loop goes below zero. -/
def ApplyFits : BaseData → List (Bytes × Option Bytes) → Prop
  | _, [] => True
  | b, r :: rs => b.ApplyRecordFits r ∧ ApplyFits (b.applyRecord r) rs

theorem applyRecord_size (b : BaseData) (r : Bytes × Option Bytes)
    (h : recordsSize b.records ≤ b.size) :
    b.ApplyRecordFits r ∧ recordsSize (b.applyRecord r).records ≤ (b.applyRecord r).size := by
  obtain ⟨key, value⟩ := r
  have hOld : ∀ old, b.records.get key = some old → key.length + old.length ≤ b.size :=
    fun old hGet => (BTreeMap.weight_le_of_get _ b.records hGet).trans h
  cases value with
  | some value =>
    have hW := BTreeMap.weight_insert (fun key value => key.length + value.length) b.records key value
    refine ⟨fun old hGet => by have := hOld old hGet; omega, ?_⟩
    rw [applyRecord_put_size, applyRecord_put_records]
    simp only [recordsSize] at h ⊢
    cases hGet : b.records.get key with
    | none => simp only [hGet, Option.map_none', Option.getD_none] at hW ⊢; omega
    | some old =>
      have := hOld old hGet
      simp only [hGet, Option.map_some', Option.getD_some] at hW ⊢
      omega
  | none =>
    have hW := BTreeMap.weight_remove (fun key value => key.length + value.length) b.records key
    refine ⟨hOld, ?_⟩
    rw [applyRecord_delete_size, applyRecord_delete_records]
    simp only [recordsSize] at h ⊢
    cases hGet : b.records.get key with
    | none => simp only [hGet, Option.map_none', Option.getD_none] at hW ⊢; omega
    | some old =>
      have := hOld old hGet
      simp only [hGet, Option.map_some', Option.getD_some] at hW ⊢
      omega

theorem foldl_applyRecord_size (L : List (Bytes × Option Bytes)) (b : BaseData)
    (h : recordsSize b.records ≤ b.size) :
    ApplyFits b L ∧ recordsSize (L.foldl applyRecord b).records ≤ (L.foldl applyRecord b).size := by
  induction L generalizing b with
  | nil => exact ⟨trivial, h⟩
  | cons r L ih =>
    obtain ⟨hFits, hStep⟩ := applyRecord_size b r h
    exact ⟨⟨hFits, (ih _ hStep).1⟩, (ih _ hStep).2⟩

theorem retain_size (b : BaseData) (lowest highest : Bytes) :
    (b.retain lowest highest).size = recordsSize (b.retain lowest highest).records :=
  BTreeMap.foldl_eq_weight _ (fun _ ⟨_, _⟩ => Nat.add_assoc _ _ _) _

theorem split_size {b r : BaseData} (h : b.split = some r) : r.size = recordsSize r.records := by
  obtain ⟨-, -, -, -, -, hSize⟩ := split_eq_some h
  exact hSize

inductive Reachable : BaseData → Prop
  | new : Reachable BaseData.new
  | apply {b : BaseData} (delta : DeltaData) : Reachable b → Reachable (b.apply delta)
  | retain {b : BaseData} (lowest highest : Bytes) :
      Reachable b → Reachable (b.retain lowest highest)
  | split {b r : BaseData} : Reachable b → b.split = some r → Reachable r

theorem Reachable.recordsSize_le {b : BaseData} (h : Reachable b) :
    recordsSize b.records ≤ b.size := by
  induction h with
  | new => exact le_rfl
  | apply delta _ ih => exact (foldl_applyRecord_size _ _ ih).2
  | retain lowest highest _ _ => exact (retain_size _ lowest highest).ge
  | split _ hSplit _ => exact (split_size hSplit).ge

/-- From every reachable page, no subtraction of `apply` goes below zero. -/
theorem Reachable.applyFits {b : BaseData} (h : Reachable b) (delta : DeltaData) :
    ApplyFits b delta.records.entries :=
  (foldl_applyRecord_size _ b h.recordsSize_le).1

/-- The bytes a turn of `apply` counts beyond the records': the key of a put that overwrites
a record. -/
def overwriteBytes (b : BaseData) : Bytes × Option Bytes → Nat
  | (key, some _) => ((b.get key).map fun _ => key.length).getD 0
  | (_, none) => 0

theorem applyRecord_drift (b : BaseData) (r : Bytes × Option Bytes)
    (h : recordsSize b.records ≤ b.size) :
    (b.applyRecord r).size + recordsSize b.records =
      b.size + recordsSize (b.applyRecord r).records + overwriteBytes b r := by
  obtain ⟨key, value⟩ := r
  have hOld : ∀ old, b.records.get key = some old → key.length + old.length ≤ b.size :=
    fun old hGet => (BTreeMap.weight_le_of_get _ b.records hGet).trans h
  cases value with
  | some value =>
    have hW := BTreeMap.weight_insert (fun key value => key.length + value.length) b.records key value
    rw [applyRecord_put_size, applyRecord_put_records]
    simp only [recordsSize, overwriteBytes, get] at hW ⊢
    cases hGet : b.records.get key with
    | none => simp only [hGet, Option.map_none', Option.getD_none] at hW ⊢; omega
    | some old =>
      have := hOld old hGet
      simp only [hGet, Option.map_some', Option.getD_some] at hW ⊢
      omega
  | none =>
    have hW := BTreeMap.weight_remove (fun key value => key.length + value.length) b.records key
    rw [applyRecord_delete_size, applyRecord_delete_records]
    simp only [recordsSize, overwriteBytes] at hW ⊢
    cases hGet : b.records.get key with
    | none => simp only [hGet, Option.map_none', Option.getD_none] at hW ⊢; omega
    | some old =>
      have := hOld old hGet
      simp only [hGet, Option.map_some', Option.getD_some] at hW ⊢
      omega

theorem foldl_applyRecord_drift (L : List (Bytes × Option Bytes))
    (hL : L.Pairwise (fun a b => a.1 < b.1)) (b : BaseData) (h : recordsSize b.records ≤ b.size) :
    (L.foldl applyRecord b).size + recordsSize b.records =
      b.size + recordsSize (L.foldl applyRecord b).records + (L.map (overwriteBytes b)).sum := by
  induction L generalizing b with
  | nil => simp
  | cons r L ih =>
    obtain ⟨k₀, v₀⟩ := r
    rw [List.pairwise_cons] at hL
    have hStep := applyRecord_drift b (k₀, v₀) h
    have hRest := ih hL.2 (b.applyRecord (k₀, v₀)) (applyRecord_size b (k₀, v₀) h).2
    have hSame : L.map (overwriteBytes (b.applyRecord (k₀, v₀))) = L.map (overwriteBytes b) :=
      List.map_congr_left fun e he => by
        obtain ⟨key, value⟩ := e
        have hNe : key ≠ k₀ := (ne_of_lt (hL.1 _ he)).symm
        cases value <;> simp [overwriteBytes, hNe]
    rw [hSame] at hRest
    simp only [List.foldl_cons, List.map_cons, List.sum_cons] at hRest ⊢
    omega

end BaseData

namespace BaseIndex

/-- `key.len() + size_of_val(handle)` summed over the children. -/
def childrenSize (children : BTreeMap Bytes PageHandle) : Nat :=
  BTreeMap.weight (fun key _ => key.length + pageHandleSize) children

theorem add_size (b : BaseIndex) (key : Bytes) (value : PageHandle) :
    (b.add key value).size =
      b.size + key.length + if b.children.get key = none then pageHandleSize else 0 := by
  cases hGet : b.children.get key <;> simp [add, hGet] <;> omega

theorem add_childrenSize (b : BaseIndex) (key : Bytes) (value : PageHandle) :
    childrenSize (b.add key value).children + (if b.children.get key = none then 0 else
      key.length + pageHandleSize) = childrenSize b.children + (key.length + pageHandleSize) := by
  have hW := BTreeMap.weight_insert (fun key (_ : PageHandle) => key.length + pageHandleSize)
    b.children key value
  cases hGet : b.children.get key <;> simp [hGet] at hW <;> simpa [childrenSize, add, hGet] using hW

theorem apply_size (b : BaseIndex) (delta : DeltaIndex) :
    (b.apply delta).size = childrenSize (b.apply delta).children :=
  BTreeMap.foldl_eq_weight _ (fun _ ⟨_, _⟩ => Nat.add_assoc _ _ _) _

theorem retain_size (b : BaseIndex) (lowest highest : Bytes) :
    (b.retain lowest highest).size = childrenSize (b.retain lowest highest).children :=
  BTreeMap.foldl_eq_weight _ (fun _ ⟨_, _⟩ => Nat.add_assoc _ _ _) _

theorem split_size {b r : BaseIndex} (h : b.split = some r) : r.size = childrenSize r.children := by
  obtain ⟨-, -, -, -, -, -, -, hSize⟩ := split_eq_some h
  exact hSize

inductive Reachable : BaseIndex → Prop
  | new : Reachable BaseIndex.new
  | add {b : BaseIndex} (key : Bytes) (value : PageHandle) : Reachable b → Reachable (b.add key value)
  | apply {b : BaseIndex} (delta : DeltaIndex) : Reachable b → Reachable (b.apply delta)
  | retain {b : BaseIndex} (lowest highest : Bytes) :
      Reachable b → Reachable (b.retain lowest highest)
  | split {b r : BaseIndex} : Reachable b → b.split = some r → Reachable r

theorem Reachable.childrenSize_le {b : BaseIndex} (h : Reachable b) :
    childrenSize b.children ≤ b.size := by
  induction h with
  | new => exact le_rfl
  | @add b key value _ ih =>
    have hSize := add_size b key value
    have hChildren := add_childrenSize b key value
    by_cases hGet : b.children.get key = none <;>
      simp only [hGet, if_true, if_false] at hSize hChildren <;> omega
  | apply delta _ _ => exact (apply_size _ delta).ge
  | retain lowest highest _ _ => exact (retain_size _ lowest highest).ge
  | split _ hSplit _ => exact (split_size hSplit).ge

end BaseIndex

/-- The size drifts from the entries' bytes by exactly the keys that overwrite an entry: from
a size no less than the records' bytes, `BaseData::apply` moves the size by what the records
gain or lose plus the key of every put over a present record, and `BaseIndex::add` by what the
children gain plus the key when it replaces a handle. -/
theorem size_drift (b : BaseData) (delta : DeltaData) (h : BaseData.recordsSize b.records ≤ b.size)
    (i : BaseIndex) (key : Bytes) (value : PageHandle) :
    (b.apply delta).size + BaseData.recordsSize b.records =
      b.size + BaseData.recordsSize (b.apply delta).records +
        (delta.records.entries.map (BaseData.overwriteBytes b)).sum ∧
    (i.add key value).size + BaseIndex.childrenSize i.children =
      i.size + BaseIndex.childrenSize (i.add key value).children +
        if i.children.get key = none then 0 else key.length := by
  refine ⟨BaseData.foldl_applyRecord_drift _ delta.records.sorted b h, ?_⟩
  have hSize := BaseIndex.add_size i key value
  have hChildren := BaseIndex.add_childrenSize i key value
  by_cases hGet : i.children.get key = none <;>
    simp only [hGet, if_true, if_false] at hSize hChildren ⊢ <;> omega

theorem size_drift_overwrite :
    BaseData.recordsSize (BaseData.new.apply (DeltaData.new.add [1] (some [2]))).records ≤
      (BaseData.new.apply (DeltaData.new.add [1] (some [2]))).size ∧
    ((BaseData.new.apply (DeltaData.new.add [1] (some [2]))).apply
        (DeltaData.new.add [1] (some [3]))).size +
      BaseData.recordsSize (BaseData.new.apply (DeltaData.new.add [1] (some [2]))).records =
      (BaseData.new.apply (DeltaData.new.add [1] (some [2]))).size +
        BaseData.recordsSize ((BaseData.new.apply (DeltaData.new.add [1] (some [2]))).apply
          (DeltaData.new.add [1] (some [3]))).records +
        ((DeltaData.new.add [1] (some [3])).records.entries.map
          (BaseData.overwriteBytes (BaseData.new.apply (DeltaData.new.add [1] (some [2]))))).sum ∧
    ((BaseIndex.new.add [1] ⟨1, 0⟩).add [1] ⟨1, 0⟩).size +
        BaseIndex.childrenSize (BaseIndex.new.add [1] ⟨1, 0⟩).children =
      (BaseIndex.new.add [1] ⟨1, 0⟩).size +
        BaseIndex.childrenSize ((BaseIndex.new.add [1] ⟨1, 0⟩).add [1] ⟨1, 0⟩).children +
        if (BaseIndex.new.add [1] ⟨1, 0⟩).children.get [1] = none then 0 else [1].length :=
  ⟨by decide, size_drift _ _ (by decide) _ _ _⟩

/-- Overwriting a key counts it twice: after putting `[1]` twice, a data page's size is 3 for
2 bytes of records, and after adding separator `[1]` twice an index page's size is 18 for 17. -/
theorem size_overcounts_overwrite :
    BaseData.Reachable ((BaseData.new.apply (DeltaData.new.add [1] (some [2]))).apply
      (DeltaData.new.add [1] (some [3]))) ∧
    ((BaseData.new.apply (DeltaData.new.add [1] (some [2]))).apply
      (DeltaData.new.add [1] (some [3]))).size = 3 ∧
    BaseData.recordsSize ((BaseData.new.apply (DeltaData.new.add [1] (some [2]))).apply
      (DeltaData.new.add [1] (some [3]))).records = 2 ∧
    BaseIndex.Reachable ((BaseIndex.new.add [1] ⟨1, 0⟩).add [1] ⟨1, 0⟩) ∧
    ((BaseIndex.new.add [1] ⟨1, 0⟩).add [1] ⟨1, 0⟩).size = 18 ∧
    BaseIndex.childrenSize ((BaseIndex.new.add [1] ⟨1, 0⟩).add [1] ⟨1, 0⟩).children = 17 :=
  ⟨.apply _ (.apply _ .new), by decide, by decide, .add _ _ (.add _ _ .new), by decide, by decide⟩

end PhotonDb.Archive
