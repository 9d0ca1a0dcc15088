import PhotonDb.Archive.Size

/-! # Key ranges of base pages along runs

A base page covers the keys of `[lowest, highest)`, an empty `highest` standing for no upper
bound. `retain` sets the range and keeps only the entries in it; `apply` and `add` insert
what they are given, so the range is kept only when every delta routed to the page holds
keys of its range. Along such runs a data page keeps all its records in its range, the right
half of a split included. An index page keeps all its separators below `highest`, and all of
them but the least at or above `lowest`: the separator `split` copies from below the right
half's `lowest` is the only one out of range, and it routes none of the page's keys.
-/

namespace PhotonDb.Archive

set_option autoImplicit false

namespace BaseData

@[simp] theorem applyRecord_lowest (b : BaseData) (r : Bytes × Option Bytes) :
    (b.applyRecord r).lowest = b.lowest := by
  obtain ⟨key, value⟩ := r
  cases value <;> rfl

@[simp] theorem applyRecord_highest (b : BaseData) (r : Bytes × Option Bytes) :
    (b.applyRecord r).highest = b.highest := by
  obtain ⟨key, value⟩ := r
  cases value <;> rfl

theorem apply_bounds (b : BaseData) (delta : DeltaData) :
    (b.apply delta).lowest = b.lowest ∧ (b.apply delta).highest = b.highest := by
  unfold apply
  induction delta.records.entries generalizing b with
  | nil => exact ⟨rfl, rfl⟩
  | cons r L ih => simpa using ih (b.applyRecord r)

theorem keysIn_apply {b : BaseData} {delta : DeltaData} {lowest highest : Bytes}
    (hb : KeysIn b.records lowest highest) (hDelta : KeysIn delta.records lowest highest) :
    KeysIn (b.apply delta).records lowest highest := by
  rintro ⟨k, v⟩ he
  have hGet : (b.apply delta).get k = some v := BTreeMap.mem_entries_iff.mp he
  rw [get_apply] at hGet
  cases hD : delta.get k with
  | some w => exact hDelta (k, w) (BTreeMap.mem_entries_iff.mpr hD)
  | none =>
    rw [hD, Option.getD_none] at hGet
    exact hb (k, v) (BTreeMap.mem_entries_iff.mpr hGet)

theorem keysIn_split {b r : BaseData} (hb : KeysIn b.records b.lowest b.highest)
    (h : b.split = some r) : KeysIn r.records r.lowest r.highest := by
  obtain ⟨v, rest, hDrop, hHigh, hRight, -⟩ := split_eq_some h
  intro x hx
  rw [hRight] at hx
  have hIn := (inRange_iff _ _ _).mp (hb x (List.mem_of_mem_drop hx))
  simpa [hHigh] using ⟨BTreeMap.le_of_mem_drop b.records.sorted hDrop hx, hIn.2⟩

/-- The data pages of runs from `new` by `apply`, `retain` and `split`, where every delta
applied holds only keys of the page's range. -/
inductive Routed : BaseData → Prop
  | new : Routed BaseData.new
  | apply {b : BaseData} (delta : DeltaData) :
      Routed b → KeysIn delta.records b.lowest b.highest → Routed (b.apply delta)
  | retain {b : BaseData} (lowest highest : Bytes) :
      Routed b → Routed (b.retain lowest highest)
  | split {b r : BaseData} : Routed b → b.split = some r → Routed r

/-- Along every run that routes to a data page only keys of its range, the page's records
lie in its range. -/
theorem Routed.records_inRange {b : BaseData} (h : Routed b) :
    KeysIn b.records b.lowest b.highest := by
  induction h with
  | new => exact fun _ he => absurd he (List.not_mem_nil _)
  | @apply b delta _ hDelta ih =>
    rw [(apply_bounds b delta).1, (apply_bounds b delta).2]
    exact keysIn_apply ih hDelta
  | retain lowest highest _ _ => exact fun _ hx => (List.mem_filter.mp hx).2
  | split _ hSplit ih => exact keysIn_split ih hSplit

theorem records_inRange_twoRecords :
    Routed ((BaseData.new.apply ((DeltaData.new.add [1] (some [10])).add [2] (some [20]))).retain
      [2] []) ∧
    KeysIn ((BaseData.new.apply ((DeltaData.new.add [1] (some [10])).add [2] (some [20]))).retain
        [2] []).records [2] [] :=
  ⟨.retain _ _ (.apply _ .new (by decide)),
    Routed.records_inRange (.retain _ _ (.apply _ .new (by decide)))⟩

end BaseData

namespace BaseIndex

/-- The separators of an index page with range `[lowest, highest)`: all lie below `highest`,
all but the least at or above `lowest`, and when one lies below `lowest`, `lowest` is a
separator too. -/
structure SeparatorsIn (children : BTreeMap Bytes PageHandle) (lowest highest : Bytes) :
    Prop where
  below_highest : ∀ k, children.get k ≠ none → k < highest ∨ highest = []
  least_below : ∀ k k', children.get k ≠ none → children.get k' ≠ none → k' < k → lowest ≤ k
  lowest_present : ∀ k, children.get k ≠ none → k < lowest → children.get lowest ≠ none

theorem mem_entries_of_get_ne_none {m : BTreeMap Bytes PageHandle} {k : Bytes}
    (h : m.get k ≠ none) : ∃ v, (k, v) ∈ m.entries := by
  obtain ⟨v, hv⟩ := Option.ne_none_iff_exists'.mp h
  exact ⟨v, BTreeMap.mem_entries_iff.mpr hv⟩

section SeparatorsIn

variable {m m' : BTreeMap Bytes PageHandle} {lowest highest : Bytes}

theorem SeparatorsIn.floor_inRange (h : SeparatorsIn m lowest highest) {k : Bytes}
    (hk : inRange lowest highest k = true) {e : Bytes × PageHandle} (hFloor : m.floor k = some e) :
    inRange lowest highest e.1 = true := by
  obtain ⟨hGet, -, hGap⟩ := BTreeMap.floor_eq_some_iff.mp hFloor
  have hPresent : m.get e.1 ≠ none := by simp [hGet]
  refine (inRange_iff _ _ _).mpr ⟨not_lt.mp fun hLt => ?_, h.below_highest _ hPresent⟩
  exact h.lowest_present _ hPresent hLt (hGap _ hLt ((inRange_iff _ _ _).mp hk).1)

theorem SeparatorsIn.of_keys (h : SeparatorsIn m lowest highest)
    (hSub : ∀ k, m'.get k ≠ none → m.get k ≠ none)
    (hLowest : m.get lowest ≠ none → m'.get lowest ≠ none) : SeparatorsIn m' lowest highest :=
  ⟨fun k hk => h.below_highest k (hSub k hk),
    fun k k' hk hk' hLt => h.least_below k k' (hSub k hk) (hSub k' hk') hLt,
    fun k hk hLt => hLowest (h.lowest_present k (hSub k hk) hLt)⟩

theorem SeparatorsIn.insert (h : SeparatorsIn m lowest highest) {k : Bytes}
    (hk : inRange lowest highest k = true) (v : PageHandle) :
    SeparatorsIn (m.insert k v).1 lowest highest := by
  obtain ⟨hLow, hHigh⟩ := (inRange_iff _ _ _).mp hk
  have hOld : ∀ k', k' ≠ k → (m.insert k v).1.get k' ≠ none → m.get k' ≠ none :=
    fun k' hNe hk' => by rwa [BTreeMap.get_insert, if_neg hNe] at hk'
  refine ⟨fun k' hk' => ?_, fun k₁ k₂ h₁ h₂ hLt => ?_, fun k' hk' hLt => ?_⟩
  · by_cases hEq : k' = k
    · exact hEq ▸ hHigh
    · exact h.below_highest k' (hOld k' hEq hk')
  · by_cases hEq₁ : k₁ = k
    · exact hEq₁ ▸ hLow
    by_cases hEq₂ : k₂ = k
    · exact hLow.trans (hEq₂ ▸ hLt).le
    · exact h.least_below k₁ k₂ (hOld k₁ hEq₁ h₁) (hOld k₂ hEq₂ h₂) hLt
  · have hNe : k' ≠ k := fun hEq => absurd hLow (not_le.mpr (hEq ▸ hLt))
    have hPresent := h.lowest_present k' (hOld k' hNe hk') hLt
    rw [BTreeMap.get_insert]
    split_ifs
    · exact Option.some_ne_none v
    · exact hPresent

theorem SeparatorsIn.renew (h : SeparatorsIn m lowest highest) {k : Bytes}
    (hk : m.get k ≠ none) (v : PageHandle) : SeparatorsIn (m.insert k v).1 lowest highest := by
  have hKeys : ∀ k', (m.insert k v).1.get k' ≠ none ↔ m.get k' ≠ none := fun k' => by
    rw [BTreeMap.get_insert]
    split_ifs with hEq
    · exact ⟨fun _ => hEq ▸ hk, fun _ => Option.some_ne_none v⟩
    · exact Iff.rfl
  exact h.of_keys (fun k' => (hKeys k').mp) (hKeys lowest).mpr

theorem SeparatorsIn.applyIndex (h : SeparatorsIn m lowest highest) {e : PageIndex}
    (hLow : inRange lowest highest e.lowest = true) :
    SeparatorsIn (applyIndex m e) lowest highest := by
  obtain ⟨q, -, -, hq, hEq⟩ := applyIndex_eq m e
  have hInserted : SeparatorsIn (m.insert q e.handle).1 lowest highest := by
    rcases hq with rfl | hq
    · exact h.insert hLow _
    · exact h.renew (fun hNone => by simp [hNone] at hq) _
  rw [hEq]
  refine hInserted.of_keys (fun k hk => ?_) fun hk => ?_
  · rw [BTreeMap.get_retain] at hk
    exact fun hNone => hk (by rw [hNone]; rfl)
  · rwa [get_removeRange_of_le ((inRange_iff _ _ _).mp hLow).1]

theorem SeparatorsIn.foldr_applyIndex (h : SeparatorsIn m lowest highest) (l : List PageIndex)
    (hl : ∀ e ∈ l, inRange lowest highest e.lowest = true) :
    SeparatorsIn (l.foldr (fun e m => BaseIndex.applyIndex m e) m) lowest highest := by
  induction l with
  | nil => exact h
  | cons e l ih =>
    exact (ih fun e' he' => hl e' (List.mem_cons_of_mem _ he')).applyIndex
      (hl e (List.mem_cons_self _ _))

theorem separatorsIn_of_keysIn (h : KeysIn m lowest highest) : SeparatorsIn m lowest highest := by
  have hIn : ∀ k, m.get k ≠ none → lowest ≤ k ∧ (k < highest ∨ highest = []) := fun k hk => by
    obtain ⟨v, hv⟩ := mem_entries_of_get_ne_none hk
    exact (inRange_iff _ _ _).mp (h _ hv)
  exact ⟨fun k hk => (hIn k hk).2, fun k _ hk _ _ => (hIn k hk).1,
    fun k hk hLt => absurd (hIn k hk).1 (not_le.mpr hLt)⟩

theorem separatorsIn_retain (lowest highest : Bytes) :
    SeparatorsIn (m.retain fun k _ => inRange lowest highest k) lowest highest :=
  separatorsIn_of_keysIn fun _ hx => (List.mem_filter.mp hx).2

end SeparatorsIn

/-- The right half of a split keeps the property: it copies one separator below its
`lowest`, the least of its children, then `lowest` and the separators above it. -/
theorem separatorsIn_split {b r : BaseIndex} (hb : SeparatorsIn b.children b.lowest b.highest)
    (h : b.split = some r) : SeparatorsIn r.children r.lowest r.highest := by
  obtain ⟨e₀, v, rest, hDrop, -, hHigh, hRight, -⟩ := split_eq_some h
  have hSorted := r.children.sorted
  rw [hRight, List.pairwise_cons, List.pairwise_cons] at hSorted
  -- the separators of `r` are those of the list `e₀ :: (r.lowest, v) :: rest`
  have hMem : ∀ k, r.children.get k ≠ none → ∃ w, (k, w) ∈ e₀ :: (r.lowest, v) :: rest :=
    fun k hk => hRight ▸ mem_entries_of_get_ne_none hk
  have hLowest : r.children.get r.lowest ≠ none := by
    rw [BTreeMap.mem_entries_iff.mp (hRight ▸ List.mem_cons_of_mem _ (List.mem_cons_self _ _) :
      (r.lowest, v) ∈ r.children.entries)]
    exact Option.some_ne_none v
  refine ⟨fun k hk => ?_, fun k k' hk hk' hLt => ?_, fun _ _ _ => hLowest⟩
  · obtain ⟨w, hw⟩ := hMem k hk
    rw [← hDrop] at hw
    have hIn : b.children.get k ≠ none := by
      rw [BTreeMap.mem_entries_iff.mp (List.mem_of_mem_drop hw)]
      exact Option.some_ne_none w
    exact hHigh ▸ hb.below_highest k hIn
  · obtain ⟨w, hw⟩ := hMem k hk
    obtain ⟨w', hw'⟩ := hMem k' hk'
    rcases List.mem_cons.mp hw with hw | hw
    · -- the copied separator is the least: nothing lies below it
      rcases List.mem_cons.mp hw' with hw' | hw'
      · obtain rfl : k' = k := congrArg Prod.fst (hw'.trans hw.symm)
        exact absurd hLt (lt_irrefl _)
      · exact absurd hLt (not_lt.mpr ((hw ▸ hSorted.1 _ hw').le))
    · rcases List.mem_cons.mp hw with hw | hw
      · exact (congrArg Prod.fst hw).ge
      · exact (hSorted.2.1 _ hw).le

/-- The index pages of runs from `new` by `add`, `apply`, `retain` and `split`, where every
key added, and the `lowest` of every delta entry applied, lies in the page's range. -/
inductive Routed : BaseIndex → Prop
  | new : Routed BaseIndex.new
  | add {b : BaseIndex} (key : Bytes) (value : PageHandle) :
      Routed b → inRange b.lowest b.highest key = true → Routed (b.add key value)
  | apply {b : BaseIndex} (delta : DeltaIndex) :
      Routed b → (∀ e ∈ delta.children, inRange b.lowest b.highest e.lowest = true) →
      Routed (b.apply delta)
  | retain {b : BaseIndex} (lowest highest : Bytes) :
      Routed b → Routed (b.retain lowest highest)
  | split {b r : BaseIndex} : Routed b → b.split = some r → Routed r

theorem Routed.separatorsIn {b : BaseIndex} (h : Routed b) :
    SeparatorsIn b.children b.lowest b.highest := by
  induction h with
  | new => exact ⟨fun _ hk => absurd rfl hk, fun _ _ hk => absurd rfl hk, fun _ hk => absurd rfl hk⟩
  | add key value _ hKey ih => exact ih.insert hKey value
  | @apply b delta _ hEntries ih =>
    show SeparatorsIn (b.apply delta).children b.lowest b.highest
    rw [apply_children]
    exact ih.foldr_applyIndex _ hEntries
  | retain lowest highest _ _ => exact separatorsIn_retain lowest highest
  | split _ hSplit ih => exact separatorsIn_split ih hSplit

/-- Along every run that routes to an index page only keys of its range, every separator lies
below `highest`, every separator but the least at or above `lowest`, and every key of the
range is routed through a separator of the range. -/
theorem Routed.separators_inRange {b : BaseIndex} (h : Routed b) :
    SeparatorsIn b.children b.lowest b.highest ∧
      ∀ k, inRange b.lowest b.highest k = true → ∀ e, b.children.floor k = some e →
        inRange b.lowest b.highest e.1 = true :=
  ⟨h.separatorsIn, fun _ hk _ hFloor => h.separatorsIn.floor_inRange hk hFloor⟩

theorem separators_inRange_twoChildRight :
    Routed twoChildRight ∧
      SeparatorsIn twoChildRight.children twoChildRight.lowest twoChildRight.highest ∧
      ∀ k, inRange twoChildRight.lowest twoChildRight.highest k = true →
        ∀ e, twoChildRight.children.floor k = some e →
          inRange twoChildRight.lowest twoChildRight.highest e.1 = true :=
  have h : Routed twoChildRight :=
    .split (.add [2] ⟨2, 0⟩ (.add [1] ⟨1, 0⟩ .new (by decide)) (by decide)) rfl
  ⟨h, Routed.separators_inRange h⟩

end BaseIndex

end PhotonDb.Archive
