import PhotonDb.Archive.BTreeMap

/-! # Data pages of the archive tree

A leaf of the archive tree is a base page, `BaseData`, under a chain of delta pages,
`DeltaData`; a delta maps a key to `Some(value)` for a put and to `None` for a delete. A read
asks the deltas from the newest and falls back to the base. Consolidation merges the deltas
(`merge` keeps the newer entry) and applies the result to the base; we show that it reads as
the chain does, and that it has the records of applying the deltas one at a time. A split
moves the records from the middle on to a right page, and `retain` keeps the rest: the two
halves partition the page.
-/

namespace PhotonDb.Archive

set_option autoImplicit false

/-- The closure of `retain`, `k >= lowest && (k < highest || highest.is_empty())`: the range
`[lowest, highest)`, an empty `highest` standing for no upper bound. -/
def inRange (lowest highest key : Bytes) : Bool :=
  decide (lowest ≤ key) && (decide (key < highest) || highest.isEmpty)

@[simp] theorem inRange_iff (lowest highest key : Bytes) :
    inRange lowest highest key = true ↔ lowest ≤ key ∧ (key < highest ∨ highest = []) := by
  simp [inRange]

def KeysIn {β : Type} (m : BTreeMap Bytes β) (lowest highest : Bytes) : Prop :=
  ∀ e ∈ m.entries, inRange lowest highest e.1 = true

instance {β : Type} (m : BTreeMap Bytes β) (lowest highest : Bytes) :
    Decidable (KeysIn m lowest highest) :=
  inferInstanceAs (Decidable (∀ e ∈ m.entries, _))

structure BaseData where
  size : Nat
  lowest : Bytes
  highest : Bytes
  records : BTreeMap Bytes Bytes

structure DeltaData where
  records : BTreeMap Bytes (Option Bytes)

namespace DeltaData

def new : DeltaData := ⟨.empty⟩

def get (d : DeltaData) (key : Bytes) : Option (Option Bytes) := d.records.get key

def add (d : DeltaData) (key : Bytes) (value : Option Bytes) : DeltaData :=
  ⟨(d.records.insert key value).1⟩

/-- `self.merge(other)`: `self` is the newer delta, and keeps its entry where both have one. -/
def merge (d other : DeltaData) : DeltaData :=
  other.records.entries.foldl (fun d (key, value) => ⟨d.records.orInsert key value⟩) d

@[simp] theorem get_add (d : DeltaData) (key k : Bytes) (value : Option Bytes) :
    (d.add key value).get k = if k = key then some value else d.get k := by
  by_cases h : k = key <;> simp [add, get, h]

theorem get_foldl_orInsert (k : Bytes) (L : List (Bytes × Option Bytes)) (d : DeltaData) :
    (L.foldl (fun d (key, value) => ⟨d.records.orInsert key value⟩) d).get k =
      (d.get k).or (BTreeMap.lookup k L) := by
  induction L generalizing d with
  | nil => simp [BTreeMap.lookup]
  | cons e L ih =>
    obtain ⟨key, value⟩ := e
    rw [List.foldl_cons, ih]
    by_cases h : key = k
    · subst h
      simp only [get, BTreeMap.get_orInsert, BTreeMap.lookup, if_pos rfl]
      cases d.records.get key <;> rfl
    · simp [get, BTreeMap.lookup, h, Ne.symm h]

@[simp] theorem get_merge (d other : DeltaData) (k : Bytes) :
    (d.merge other).get k = (d.get k).or (other.get k) :=
  get_foldl_orInsert k _ d

@[ext] theorem ext {d₁ d₂ : DeltaData} (h : ∀ k, d₁.get k = d₂.get k) : d₁ = d₂ := by
  cases d₁
  cases d₂
  exact congrArg DeltaData.mk (BTreeMap.ext h)

theorem merge_assoc_new (d₁ d₂ d₃ : DeltaData) :
    (d₁.merge d₂).merge d₃ = d₁.merge (d₂.merge d₃) ∧ d₁.merge new = d₁ ∧ new.merge d₁ = d₁ :=
  ⟨ext fun k => by simp [Option.or_assoc], ext fun k => by rw [get_merge]; simp [get, new],
    ext fun k => by rw [get_merge]; simp [get, new]⟩

end DeltaData

namespace BaseData

def new : BaseData := ⟨0, [], [], .empty⟩

def get (b : BaseData) (key : Bytes) : Option Bytes := b.records.get key

/-- One turn of the loop of `apply`: the size grows by the new record and, on an overwrite,
shrinks by the old value. -/
def applyRecord (b : BaseData) : Bytes × Option Bytes → BaseData
  | (key, some value) =>
    let inserted := b.records.insert key value
    { b with
      records := inserted.1
      size := match inserted.2 with
        | some oldValue => b.size + (key.length + value.length) - oldValue.length
        | none => b.size + (key.length + value.length) }
  | (key, none) =>
    let removed := b.records.remove key
    { b with
      records := removed.1
      size := match removed.2 with
        | some oldValue => b.size - (key.length + oldValue.length)
        | none => b.size }

def apply (b : BaseData) (delta : DeltaData) : BaseData :=
  delta.records.entries.foldl applyRecord b

def splitRecord (right : BaseData) : Bytes × Bytes → BaseData
  | (key, value) =>
    { right with
      size := right.size + (key.length + value.length)
      records := (right.records.insert key value).1 }

/-- The right half takes the records from the `(len + 1) / 2`-th on, if there is one. -/
def split (b : BaseData) : Option BaseData :=
  let nth := (b.records.len + 1) / 2
  match b.records.nthKey nth with
  | some key =>
    some ((b.records.entries.drop nth).foldl splitRecord
      { BaseData.new with lowest := key, highest := b.highest })
  | none => none

def retain (b : BaseData) (lowest highest : Bytes) : BaseData :=
  let records := b.records.retain fun k _ => inRange lowest highest k
  { lowest, highest, records
    size := records.entries.foldl (fun acc (k, v) => acc + k.length + v.length) 0 }

@[simp] theorem get_applyRecord (b : BaseData) (key : Bytes) (value : Option Bytes) (k : Bytes) :
    (b.applyRecord (key, value)).get k = if k = key then value else b.get k := by
  cases value <;> simp [applyRecord, get]

@[simp] theorem applyRecord_put_records (b : BaseData) (key value : Bytes) :
    (b.applyRecord (key, some value)).records = (b.records.insert key value).1 := rfl

@[simp] theorem applyRecord_delete_records (b : BaseData) (key : Bytes) :
    (b.applyRecord (key, none)).records = (b.records.remove key).1 := rfl

theorem applyRecord_put_size (b : BaseData) (key value : Bytes) :
    (b.applyRecord (key, some value)).size =
      b.size + (key.length + value.length) - ((b.records.get key).map List.length).getD 0 := by
  simp only [applyRecord, BTreeMap.insert_snd]
  cases b.records.get key <;> rfl

theorem applyRecord_delete_size (b : BaseData) (key : Bytes) :
    (b.applyRecord (key, none)).size =
      b.size - ((b.records.get key).map fun old => key.length + old.length).getD 0 := by
  simp only [applyRecord, BTreeMap.remove_snd]
  cases b.records.get key <;> rfl

theorem get_foldl_applyRecord (k : Bytes) {L : List (Bytes × Option Bytes)}
    (hL : L.Pairwise (fun a b => a.1 < b.1)) (b : BaseData) :
    (L.foldl applyRecord b).get k = (BTreeMap.lookup k L).getD (b.get k) := by
  induction L generalizing b with
  | nil => rfl
  | cons e L ih =>
    obtain ⟨key, value⟩ := e
    rw [List.pairwise_cons] at hL
    rw [List.foldl_cons, ih hL.2]
    by_cases h : key = k
    · subst h
      simp [BTreeMap.lookup, BTreeMap.lookup_eq_none_of_lt hL.1]
    · simp [BTreeMap.lookup, h, Ne.symm h]

@[simp] theorem get_apply (b : BaseData) (delta : DeltaData) (k : Bytes) :
    (b.apply delta).get k = (delta.get k).getD (b.get k) :=
  get_foldl_applyRecord k delta.records.sorted b

end BaseData

/-- Modelled from the spec: the read of a delta chain, newest delta first. The first delta
that has the key decides, and the base answers when none has it. -/
def chainRead (deltas : List DeltaData) (b : BaseData) (key : Bytes) : Option Bytes :=
  match deltas with
  | [] => b.get key
  | d :: rest =>
    match d.get key with
    | some value => value
    | none => chainRead rest b key

theorem chainRead_cons (d : DeltaData) (rest : List DeltaData) (b : BaseData) (key : Bytes) :
    chainRead (d :: rest) b key = (d.get key).getD (chainRead rest b key) := by
  cases h : d.get key <;> simp [chainRead, h]

theorem get_foldl_merge (b : BaseData) (k : Bytes) (ds : List DeltaData) (acc : DeltaData) :
    ((ds.foldl DeltaData.merge acc).get k).getD (b.get k) = (acc.get k).getD (chainRead ds b k) := by
  induction ds generalizing acc with
  | nil => rfl
  | cons d ds ih =>
    rw [List.foldl_cons, ih, DeltaData.get_merge, chainRead_cons]
    cases acc.get k <;> rfl

theorem get_foldl_apply_reverse (b : BaseData) (k : Bytes) (ds : List DeltaData) :
    (ds.reverse.foldl BaseData.apply b).get k = chainRead ds b k := by
  induction ds with
  | nil => rfl
  | cons d ds ih =>
    rw [List.reverse_cons, List.foldl_append, List.foldl_cons, List.foldl_nil,
      BaseData.get_apply, ih, chainRead_cons]

/-- Consolidating a chain `d :: ds` (newest first) merges the deltas into the head and applies
the result: every key then reads as the chain reads it, and the records are those of applying
the deltas to the base one at a time, oldest first. -/
theorem consolidate_data_chainRead (b : BaseData) (d : DeltaData) (ds : List DeltaData) :
    (∀ k, (b.apply (ds.foldl DeltaData.merge d)).get k = chainRead (d :: ds) b k) ∧
      (b.apply (ds.foldl DeltaData.merge d)).records =
        ((d :: ds).reverse.foldl BaseData.apply b).records := by
  have hRead : ∀ k, (b.apply (ds.foldl DeltaData.merge d)).get k = chainRead (d :: ds) b k :=
    fun k => by rw [BaseData.get_apply, get_foldl_merge, chainRead_cons]
  exact ⟨hRead, BTreeMap.ext fun k => (hRead k).trans (get_foldl_apply_reverse b k _).symm⟩

namespace BaseData

theorem foldl_splitRecord (right : BaseData) (L : List (Bytes × Bytes))
    (h : (right.records.entries ++ L).Pairwise (fun a b => a.1 < b.1)) :
    L.foldl splitRecord right =
      { right with
        size := right.size + (L.map fun e => e.1.length + e.2.length).sum
        records := ⟨right.records.entries ++ L, h⟩ } := by
  induction L generalizing right with
  | nil => simp
  | cons e L ih =>
    obtain ⟨key, value⟩ := e
    have hAppend : (right.records.insert key value).1.entries = right.records.entries ++ [(key, value)] :=
      BTreeMap.insertEntry_of_lt fun x hx =>
        (List.pairwise_append.mp h).2.2 x hx _ (List.mem_cons_self _ _)
    rw [List.foldl_cons, ih _ (by simpa only [splitRecord, hAppend, List.append_assoc] using h)]
    simp only [splitRecord, hAppend, List.append_assoc, List.singleton_append, List.map_cons,
      List.sum_cons, Nat.add_assoc]

theorem split_eq_none_iff (b : BaseData) : b.split = none ↔ b.records.len ≤ 1 := by
  cases hKey : b.records.nthKey ((b.records.len + 1) / 2) with
  | none =>
    have hLen := BTreeMap.nthKey_eq_none_iff.mp hKey
    simp only [split, hKey, true_iff]
    omega
  | some key =>
    have hLen : ¬ b.records.len ≤ (b.records.len + 1) / 2 := fun h => by
      simp [BTreeMap.nthKey_eq_none_iff.mpr h] at hKey
    simp only [split, hKey, reduceCtorEq, false_iff]
    omega

theorem split_eq_some {b r : BaseData} (h : b.split = some r) :
    ∃ v rest, b.records.entries.drop ((b.records.len + 1) / 2) = (r.lowest, v) :: rest ∧
      r.highest = b.highest ∧
      r.records.entries = b.records.entries.drop ((b.records.len + 1) / 2) ∧
      r.size = (r.records.entries.map fun e => e.1.length + e.2.length).sum := by
  unfold split at h
  cases hKey : b.records.nthKey ((b.records.len + 1) / 2) with
  | none => simp [hKey] at h
  | some key =>
    obtain ⟨v, rest, hDrop⟩ := BTreeMap.drop_of_nthKey_eq_some hKey
    have hSorted : (BaseData.new.records.entries ++ b.records.entries.drop
        ((b.records.len + 1) / 2)).Pairwise (fun a b => a.1 < b.1) :=
      b.records.sorted.sublist (List.drop_sublist _ _)
    simp only [hKey, Option.some.injEq] at h
    subst h
    rw [foldl_splitRecord { BaseData.new with lowest := key, highest := b.highest } _ hSorted]
    exact ⟨v, rest, hDrop, rfl, rfl, by simp only [new, BTreeMap.empty, List.nil_append, Nat.zero_add]⟩

@[simp] theorem retain_records (b : BaseData) (lowest highest : Bytes) :
    (b.retain lowest highest).records = b.records.retain fun k _ => inRange lowest highest k := rfl

end BaseData

/-- A split of a page whose keys lie in its range partitions it: the left half is the page
retained below the right half's lowest key, and the two halves share no record, cover all of
the page's records, and keep their keys in their own ranges. -/
theorem split_partitions (b : BaseData) (hKeys : KeysIn b.records b.lowest b.highest) :
    (b.split = none ↔ b.records.len ≤ 1) ∧
      ∀ r, b.split = some r →
        r.highest = b.highest ∧ 0 < (b.retain b.lowest r.lowest).records.len ∧
        0 < r.records.len ∧
        (∀ k, (b.retain b.lowest r.lowest).get k = none ∨ r.get k = none) ∧
        (∀ k v, b.get k = some v ↔
          (b.retain b.lowest r.lowest).get k = some v ∨ r.get k = some v) ∧
        KeysIn r.records r.lowest r.highest ∧
        KeysIn (b.retain b.lowest r.lowest).records b.lowest r.lowest := by
  refine ⟨b.split_eq_none_iff, fun r hr => ?_⟩
  obtain ⟨v, rest, hDrop, hHigh, hRight, -⟩ := BaseData.split_eq_some hr
  have hTwo : ¬ b.records.len ≤ 1 := fun h => by simp [b.split_eq_none_iff.mpr h] at hr
  set L := b.records.entries
  set n := (b.records.len + 1) / 2 with hn
  have hSorted : L.Pairwise (fun a b => a.1 < b.1) := b.records.sorted
  have hLen : b.records.len = L.length := rfl
  -- the middle key lies above the first key, so it is not the empty sentinel
  have hMid : r.lowest ≠ [] := by
    have hFirst : L.take n ≠ [] := by
      rw [Ne, List.take_eq_nil_iff, not_or]
      exact ⟨by omega, fun h => hTwo (by rw [hLen, h]; simp)⟩
    obtain ⟨x, hx⟩ := List.exists_mem_of_ne_nil _ hFirst
    exact fun h => absurd (BTreeMap.lt_of_mem_take hSorted hDrop hx)
      (by rw [h]; exact not_lt.mpr List.nil_le)
  have hLeft : (b.retain b.lowest r.lowest).records.entries = L.take n := by
    show L.filter _ = _
    conv_lhs => rw [← List.take_append_drop n L]
    rw [List.filter_append, List.filter_eq_self.mpr, List.filter_eq_nil_iff.mpr, List.append_nil]
    · intro x hx
      have hle := BTreeMap.le_of_mem_drop hSorted hDrop hx
      simp [not_lt.mpr hle, hMid]
    · intro x hx
      have hb := (inRange_iff _ _ _).mp (hKeys x (List.mem_of_mem_take hx))
      exact (inRange_iff _ _ _).mpr ⟨hb.1, .inl (BTreeMap.lt_of_mem_take hSorted hDrop hx)⟩
  have hGetLeft : ∀ k, (b.retain b.lowest r.lowest).get k = BTreeMap.lookup k (L.take n) :=
    fun k => by rw [← hLeft]; rfl
  have hGetRight : ∀ k, r.get k = BTreeMap.lookup k (L.drop n) :=
    fun k => by rw [← hRight]; rfl
  have hDisjoint : ∀ k, (b.retain b.lowest r.lowest).get k = none ∨ r.get k = none :=
    fun k => by rw [hGetLeft, hGetRight]; exact BTreeMap.lookup_take_or_drop hSorted hDrop k
  refine ⟨hHigh, ?_, ?_, hDisjoint, fun k w => ?_, ?_, ?_⟩
  · simp only [BTreeMap.len, hLeft, List.length_take]; omega
  · simp [BTreeMap.len, hRight, hDrop]
  · have hSplit : b.get k = (BTreeMap.lookup k (L.take n)).or (BTreeMap.lookup k (L.drop n)) := by
      rw [← BTreeMap.lookup_append, List.take_append_drop]; rfl
    rw [hSplit, ← hGetLeft, ← hGetRight, Option.or_eq_some]
    rcases hDisjoint k with h | h <;> simp [h]
  · intro x hx
    rw [hRight] at hx
    have hb := (inRange_iff _ _ _).mp (hKeys x (List.mem_of_mem_drop hx))
    simpa [hHigh] using ⟨BTreeMap.le_of_mem_drop hSorted hDrop hx, hb.2⟩
  · intro x hx
    exact (List.mem_filter.mp hx).2

def twoRecordPage : BaseData := ⟨4, [], [], ⟨[([1], [10]), ([2], [20])], by decide⟩⟩

theorem split_partitions_twoRecordPage :
    KeysIn twoRecordPage.records twoRecordPage.lowest twoRecordPage.highest ∧
    (twoRecordPage.split = none ↔ twoRecordPage.records.len ≤ 1) ∧
      ∀ r, twoRecordPage.split = some r →
        r.highest = twoRecordPage.highest ∧
        0 < (twoRecordPage.retain twoRecordPage.lowest r.lowest).records.len ∧
        0 < r.records.len ∧
        (∀ k, (twoRecordPage.retain twoRecordPage.lowest r.lowest).get k = none ∨ r.get k = none) ∧
        (∀ k v, twoRecordPage.get k = some v ↔
          (twoRecordPage.retain twoRecordPage.lowest r.lowest).get k = some v ∨ r.get k = some v) ∧
        KeysIn r.records r.lowest r.highest ∧
        KeysIn (twoRecordPage.retain twoRecordPage.lowest r.lowest).records twoRecordPage.lowest
          r.lowest :=
  ⟨by decide, split_partitions twoRecordPage (by decide)⟩

end PhotonDb.Archive
