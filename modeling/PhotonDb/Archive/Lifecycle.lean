import PhotonDb.Archive.Smo

/-! # The life of a data page

A leaf of the tree is a chain of deltas over a base page. A write posts a delta of one record
at the head of the chain (`DeltaData::add`). Consolidation merges the chain into its newest
delta and applies that to the base (`DeltaData::merge`, `BaseData::apply`). A split of the
consolidated base hands the records from the middle on to a new right page
(`BaseData::split`) and keeps the rest (`BaseData::retain`).

What a leaf stands for is a map over its key range, `RangeMap`. `RangeMap.Steps` runs it along
the leaf's own operations: a write sets its key, consolidation changes nothing, and a split may
hand the part of the range from a middle key on, with its values, to a new map. Along every
such run the final map reads as the fold of the run's writes on its range, and its range and
those of the maps handed off partition the range it started with. Every run of a leaf whose
writes hit its range is such a run, the read of the chain giving the map
(`DataPage.run_sim`). The fence invariant `DataPage.Fenced`, that every record of the chain
lies in the base's range, is what makes the middle of a split a key inside the range.
-/

namespace PhotonDb.Archive

set_option autoImplicit false

section Ranges

variable {lowest middle highest k : Bytes}

theorem ne_nil_of_lt (h : lowest < middle) : middle ≠ [] := by
  rintro rfl
  exact not_lt.mpr List.nil_le h

theorem inRange_of_inRange_left (hLow : lowest < middle)
    (hMid : inRange lowest highest middle = true) (hk : inRange lowest middle k = true) :
    inRange lowest highest k = true := by
  rw [inRange_iff] at hMid hk ⊢
  have hk' : k < middle := hk.2.resolve_right (ne_nil_of_lt hLow)
  exact ⟨hk.1, hMid.2.imp_left hk'.trans⟩

theorem inRange_of_inRange_right (hLow : lowest ≤ middle) (hk : inRange middle highest k = true) :
    inRange lowest highest k = true := by
  rw [inRange_iff] at hk ⊢
  exact ⟨hLow.trans hk.1, hk.2⟩

theorem inRange_split (hLow : lowest < middle) (hMid : inRange lowest highest middle = true)
    (k : Bytes) :
    (if inRange lowest middle k then 1 else 0) + (if inRange middle highest k then 1 else 0) =
      if inRange lowest highest k then 1 else 0 := by
  by_cases hk : k < middle
  · have hRight : inRange middle highest k = false :=
      Bool.eq_false_iff.mpr fun h => not_le.mpr hk ((inRange_iff _ _ _).mp h).1
    have hLeft : inRange lowest middle k = inRange lowest highest k :=
      Bool.eq_iff_iff.mpr ⟨inRange_of_inRange_left hLow hMid, fun h =>
        (inRange_iff _ _ _).mpr ⟨((inRange_iff _ _ _).mp h).1, .inl hk⟩⟩
    rw [hRight, hLeft]
    rfl
  · have hLeft : inRange lowest middle k = false := Bool.eq_false_iff.mpr fun h =>
      hk (((inRange_iff _ _ _).mp h).2.resolve_right (ne_nil_of_lt hLow))
    have hRight : inRange middle highest k = inRange lowest highest k :=
      Bool.eq_iff_iff.mpr ⟨inRange_of_inRange_right hLow.le, fun h =>
        (inRange_iff _ _ _).mpr ⟨not_lt.mp hk, ((inRange_iff _ _ _).mp h).2⟩⟩
    simp only [hLeft, hRight, Bool.false_eq_true, if_false, Nat.zero_add]

end Ranges

inductive DataOp where
  /-- post a delta of one record: `Some(value)` for a put, `None` for a delete -/
  | write (key : Bytes) (value : Option Bytes)
  | consolidate
  | split

namespace DataOp

/-- The reads after the writes of a run, in order, over the reads `read`. -/
def applyWrites : List DataOp → (Bytes → Option Bytes) → Bytes → Option Bytes
  | [], read => read
  | .write key value :: ops, read => applyWrites ops (Function.update read key value)
  | _ :: ops, read => applyWrites ops read

theorem applyWrites_congr {f g : Bytes → Option Bytes} {k : Bytes} (h : f k = g k) :
    ∀ ops : List DataOp, applyWrites ops f k = applyWrites ops g k
  | [] => h
  | .write key value :: ops =>
    applyWrites_congr (by simp only [Function.update_apply, h]) ops
  | .consolidate :: ops => applyWrites_congr h ops
  | .split :: ops => applyWrites_congr h ops

end DataOp

/-- The contents of a page over `[lowest, highest)`: a value, or none, for every key. -/
structure RangeMap where
  lowest : Bytes
  highest : Bytes
  read : Bytes → Option Bytes

namespace RangeMap

def restrict (lowest highest : Bytes) (read : Bytes → Option Bytes) : RangeMap :=
  ⟨lowest, highest, fun k => if inRange lowest highest k then read k else none⟩

theorem restrict_congr {lowest highest : Bytes} {f g : Bytes → Option Bytes}
    (h : ∀ k, inRange lowest highest k = true → f k = g k) :
    restrict lowest highest f = restrict lowest highest g := by
  simp only [restrict, mk.injEq, true_and]
  funext k
  split_ifs with hk
  · exact h k hk
  · rfl

/-- The runs of a page along the operations `ops`, with the maps it hands off: a write sets a
key of the range, consolidation changes nothing, and a split either keeps the page or hands
the part of the map from a key inside the range and above `lowest` on to a new page. -/
inductive Steps : RangeMap → List DataOp → RangeMap → List RangeMap → Prop
  | nil (m : RangeMap) : Steps m [] m []
  | write {m m' : RangeMap} {ops : List DataOp} {hs : List RangeMap} (key : Bytes)
      (value : Option Bytes) : inRange m.lowest m.highest key = true →
      Steps ⟨m.lowest, m.highest, Function.update m.read key value⟩ ops m' hs →
      Steps m (.write key value :: ops) m' hs
  | consolidate {m m' : RangeMap} {ops : List DataOp} {hs : List RangeMap} :
      Steps m ops m' hs → Steps m (.consolidate :: ops) m' hs
  | keep {m m' : RangeMap} {ops : List DataOp} {hs : List RangeMap} :
      Steps m ops m' hs → Steps m (.split :: ops) m' hs
  | split {m m' : RangeMap} {ops : List DataOp} {hs : List RangeMap} (middle : Bytes) :
      m.lowest < middle → inRange m.lowest m.highest middle = true →
      Steps (restrict m.lowest middle m.read) ops m' hs →
      Steps m (.split :: ops) m' (restrict middle m.highest m.read :: hs)

variable {m m' : RangeMap} {ops : List DataOp} {hs : List RangeMap}

theorem Steps.inRange_of_final (h : Steps m ops m' hs) {k : Bytes}
    (hk : inRange m'.lowest m'.highest k = true) : inRange m.lowest m.highest k = true := by
  induction h with
  | nil => exact hk
  | write _ _ _ _ ih => exact ih hk
  | consolidate _ ih => exact ih hk
  | keep _ ih => exact ih hk
  | split _ hLow hMid _ ih => exact inRange_of_inRange_left hLow hMid (ih hk)

theorem Steps.read_final (h : Steps m ops m' hs) {k : Bytes}
    (hk : inRange m'.lowest m'.highest k = true) :
    m'.read k = DataOp.applyWrites ops m.read k := by
  induction h with
  | nil => rfl
  | write _ _ _ _ ih => exact ih hk
  | consolidate _ ih => exact ih hk
  | keep _ ih => exact ih hk
  | @split m m' ops hs middle _ _ hRest ih =>
    rw [ih hk]
    exact DataOp.applyWrites_congr (if_pos (hRest.inRange_of_final hk)) ops

theorem Steps.countP_inRange (h : Steps m ops m' hs) (k : Bytes) :
    (m' :: hs).countP (fun n => inRange n.lowest n.highest k) =
      if inRange m.lowest m.highest k then 1 else 0 := by
  induction h with
  | nil m => simp only [List.countP_cons, List.countP_nil, Nat.zero_add]
  | write _ _ _ _ ih => exact ih
  | consolidate _ ih => exact ih
  | keep _ ih => exact ih
  | @split m m' ops hs middle hLow hMid _ ih =>
    change _ = if inRange m.lowest middle k then 1 else 0 at ih
    rw [← inRange_split hLow hMid, ← ih]
    simp only [List.countP_cons, restrict]
    omega

end RangeMap

/-- A leaf of the tree: a chain of deltas, newest first, over a base page. -/
structure DataPage where
  deltas : List DeltaData
  base : BaseData

@[simp] theorem DeltaData.get_new (k : Bytes) : DeltaData.new.get k = none := rfl

def BaseData.abs (b : BaseData) : RangeMap := .restrict b.lowest b.highest b.get

namespace DataPage

def read (p : DataPage) (key : Bytes) : Option Bytes := chainRead p.deltas p.base key

def abs (p : DataPage) : RangeMap := .restrict p.base.lowest p.base.highest p.read

/-- Modelled from the spec: the base page consolidation builds, the chain merged into its
newest delta and applied. -/
def consolidate (p : DataPage) : BaseData :=
  match p.deltas with
  | [] => p.base
  | d :: ds => p.base.apply (ds.foldl DeltaData.merge d)

/-- Modelled from the spec: one operation of the tree on a leaf, giving the leaf after it and
the right page a split hands off. A split consolidates first and keeps the consolidated page
when it has too few records to split. -/
def step (p : DataPage) : DataOp → DataPage × Option BaseData
  | .write key value => (⟨DeltaData.new.add key value :: p.deltas, p.base⟩, none)
  | .consolidate => (⟨[], p.consolidate⟩, none)
  | .split =>
    match p.consolidate.split with
    | some r => (⟨[], p.consolidate.retain p.consolidate.lowest r.lowest⟩, some r)
    | none => (⟨[], p.consolidate⟩, none)

def run (p : DataPage) : List DataOp → DataPage × List BaseData
  | [] => (p, [])
  | op :: ops =>
    let s := p.step op
    let t := s.1.run ops
    (t.1, s.2.toList ++ t.2)

/-- Modelled from the spec: the tree routes to a leaf only the writes of its range. -/
def takes (p : DataPage) : DataOp → Bool
  | .write key _ => inRange p.base.lowest p.base.highest key
  | _ => true

def takesAll (p : DataPage) : List DataOp → Bool
  | [] => true
  | op :: ops => p.takes op && (p.step op).1.takesAll ops

structure Fenced (p : DataPage) : Prop where
  deltas : ∀ d ∈ p.deltas, KeysIn d.records p.base.lowest p.base.highest
  base : KeysIn p.base.records p.base.lowest p.base.highest

theorem fenced_of_base {b : BaseData} (h : KeysIn b.records b.lowest b.highest) :
    (⟨[], b⟩ : DataPage).Fenced :=
  ⟨fun _ hd => absurd hd (List.not_mem_nil _), h⟩

theorem consolidate_bounds (p : DataPage) :
    p.consolidate.lowest = p.base.lowest ∧ p.consolidate.highest = p.base.highest := by
  obtain ⟨_ | ⟨d, ds⟩, b⟩ := p
  · exact ⟨rfl, rfl⟩
  · exact BaseData.apply_bounds b _

theorem get_consolidate (p : DataPage) (k : Bytes) : p.consolidate.get k = p.read k := by
  obtain ⟨_ | ⟨d, ds⟩, b⟩ := p
  · rfl
  · exact BaseData.get_consolidated b d ds k

theorem keysIn_merge {d other : DeltaData} {lowest highest : Bytes}
    (hd : KeysIn d.records lowest highest) (hOther : KeysIn other.records lowest highest) :
    KeysIn (d.merge other).records lowest highest := by
  rintro ⟨k, v⟩ he
  have hGet : (d.get k).or (other.get k) = some v := by
    rw [← DeltaData.get_merge]
    exact BTreeMap.mem_entries_iff.mp he
  cases hD : d.get k with
  | some w => exact hd (k, w) (BTreeMap.mem_entries_iff.mpr hD)
  | none =>
    rw [hD, Option.none_or] at hGet
    exact hOther (k, v) (BTreeMap.mem_entries_iff.mpr hGet)

theorem keysIn_foldl_merge {lowest highest : Bytes} (ds : List DeltaData)
    (hds : ∀ d ∈ ds, KeysIn d.records lowest highest) {acc : DeltaData}
    (hAcc : KeysIn acc.records lowest highest) :
    KeysIn (ds.foldl DeltaData.merge acc).records lowest highest := by
  induction ds generalizing acc with
  | nil => exact hAcc
  | cons d ds ih =>
    exact ih (fun d' hd' => hds d' (List.mem_cons_of_mem d hd'))
      (keysIn_merge hAcc (hds d (List.mem_cons_self d ds)))

theorem Fenced.consolidate {p : DataPage} (hp : p.Fenced) :
    KeysIn p.consolidate.records p.consolidate.lowest p.consolidate.highest := by
  rw [(consolidate_bounds p).1, (consolidate_bounds p).2]
  obtain ⟨_ | ⟨d, ds⟩, b⟩ := p
  · exact hp.base
  · exact BaseData.keysIn_apply hp.base (keysIn_foldl_merge ds
      (fun d' hd' => hp.deltas d' (List.mem_cons_of_mem d hd'))
      (hp.deltas d (List.mem_cons_self d ds)))

theorem abs_consolidate (p : DataPage) : (⟨[], p.consolidate⟩ : DataPage).abs = p.abs := by
  have hRead : (⟨[], p.consolidate⟩ : DataPage).read = p.read := funext (get_consolidate p)
  simp only [abs, hRead, (consolidate_bounds p).1, (consolidate_bounds p).2]

theorem keysIn_new_add {lowest highest key : Bytes} (value : Option Bytes)
    (hk : inRange lowest highest key = true) :
    KeysIn (DeltaData.new.add key value).records lowest highest := by
  rintro ⟨k, v⟩ he
  have hGet : (DeltaData.new.add key value).get k = some v := BTreeMap.mem_entries_iff.mp he
  by_cases h : k = key
  · exact h ▸ hk
  · rw [DeltaData.get_add, if_neg h, DeltaData.get_new] at hGet
    exact absurd hGet (Option.noConfusion)

theorem abs_write (p : DataPage) {key : Bytes} (value : Option Bytes)
    (hk : inRange p.base.lowest p.base.highest key = true) :
    (⟨DeltaData.new.add key value :: p.deltas, p.base⟩ : DataPage).abs =
      ⟨p.abs.lowest, p.abs.highest, Function.update p.abs.read key value⟩ := by
  simp only [abs, RangeMap.restrict, RangeMap.mk.injEq, true_and]
  funext k
  by_cases h : k = key
  · subst h
    simp only [hk, if_true, Function.update_same, read, chainRead_cons, DeltaData.get_add,
      Option.getD_some]
  · simp only [Function.update_noteq h, read, chainRead_cons, DeltaData.get_add, if_neg h,
      DeltaData.get_new, Option.getD_none]

theorem lowest_lt_split {b r : BaseData} (hb : KeysIn b.records b.lowest b.highest)
    (h : b.split = some r) : b.lowest < r.lowest ∧ inRange b.lowest b.highest r.lowest = true := by
  obtain ⟨v, rest, hDrop, -⟩ := BaseData.split_eq_some h
  have hLen := congrArg List.length hDrop
  rw [List.length_drop, List.length_cons] at hLen
  have hTake : b.records.entries.take ((b.records.len + 1) / 2) ≠ [] := by
    rw [Ne, List.take_eq_nil_iff, not_or]
    exact ⟨by unfold BTreeMap.len; omega, List.ne_nil_of_length_pos (by omega)⟩
  obtain ⟨x, hx⟩ := List.exists_mem_of_ne_nil _ hTake
  refine ⟨lt_of_le_of_lt ((inRange_iff _ _ _).mp (hb x (List.mem_of_mem_take hx))).1
      (BTreeMap.lt_of_mem_take b.records.sorted hDrop hx), ?_⟩
  exact hb (r.lowest, v) (List.mem_of_mem_drop (by rw [hDrop]; exact List.mem_cons_self _ _))

theorem abs_split {p : DataPage} (hp : p.Fenced) {r : BaseData}
    (h : p.consolidate.split = some r) :
    p.abs.lowest < r.lowest ∧ inRange p.abs.lowest p.abs.highest r.lowest = true ∧
      (⟨[], p.consolidate.retain p.consolidate.lowest r.lowest⟩ : DataPage).abs =
        .restrict p.abs.lowest r.lowest p.abs.read ∧
      r.abs = .restrict r.lowest p.abs.highest p.abs.read := by
  obtain ⟨hLow, hMid⟩ := lowest_lt_split hp.consolidate h
  obtain ⟨hLo, hHi⟩ := consolidate_bounds p
  rw [hLo] at hLow
  rw [hLo, hHi] at hMid
  obtain ⟨-, -, -, hHigh, -⟩ := BaseData.split_eq_some h
  refine ⟨hLow, hMid, ?_, ?_⟩
  · show RangeMap.restrict p.consolidate.lowest r.lowest (p.consolidate.retain _ _).get = _
    rw [hLo]
    refine RangeMap.restrict_congr fun k hk => ?_
    show _ = if inRange p.base.lowest p.base.highest k then p.read k else none
    rw [BaseData.get_retain, if_pos hk, get_consolidate,
      if_pos (inRange_of_inRange_left hLow hMid hk)]
  · rw [BaseData.abs, hHigh, hHi]
    refine RangeMap.restrict_congr fun k hk => ?_
    show _ = if inRange p.base.lowest p.base.highest k then p.read k else none
    rw [BaseData.get_split h, if_pos ((inRange_iff _ _ _).mp hk).1, get_consolidate,
      if_pos (inRange_of_inRange_right hLow.le hk)]

/-- One operation the leaf takes keeps it fenced, hands off fenced pages, and is a step of the
map the leaf stands for: any abstract run from the map after it extends back to the map before
it, with the handed-off page's map first. -/
theorem step_sim {p : DataPage} (hp : p.Fenced) {op : DataOp} (hOp : p.takes op = true) :
    (p.step op).1.Fenced ∧ (∀ r ∈ (p.step op).2, (⟨[], r⟩ : DataPage).Fenced) ∧
      ∀ {ops : List DataOp} {m' : RangeMap} {hs : List RangeMap},
        RangeMap.Steps (p.step op).1.abs ops m' hs →
        RangeMap.Steps p.abs (op :: ops) m' ((p.step op).2.toList.map BaseData.abs ++ hs) := by
  have hConsolidated : (⟨[], p.consolidate⟩ : DataPage).Fenced := fenced_of_base hp.consolidate
  cases op with
  | write key value =>
    refine ⟨⟨?_, hp.base⟩, fun _ hr => absurd hr (Option.not_mem_none _), fun h => ?_⟩
    · rintro d (_ | ⟨_, hd⟩)
      exacts [keysIn_new_add value hOp, hp.deltas d hd]
    · exact .write key value hOp (abs_write p value hOp ▸ h)
  | consolidate =>
    exact ⟨hConsolidated, fun _ hr => absurd hr (Option.not_mem_none _),
      fun h => .consolidate (abs_consolidate p ▸ h)⟩
  | split =>
    cases hSplit : p.consolidate.split with
    | none =>
      simp only [step, hSplit]
      exact ⟨hConsolidated, fun _ hr => absurd hr (Option.not_mem_none _),
        fun h => .keep (abs_consolidate p ▸ h)⟩
    | some r =>
      obtain ⟨hLow, hMid, hLeft, hRight⟩ := abs_split hp hSplit
      simp only [step, hSplit, Option.mem_def, Option.some.injEq, forall_eq',
        Option.toList_some, List.map_cons, List.map_nil, List.singleton_append]
      refine ⟨fenced_of_base fun _ hx => (List.mem_filter.mp hx).2,
        fenced_of_base (BaseData.keysIn_split hp.consolidate hSplit), fun h => ?_⟩
      rw [hRight]
      exact .split r.lowest hLow hMid (hLeft ▸ h)

theorem run_sim (ops : List DataOp) :
    ∀ {p : DataPage}, p.Fenced → p.takesAll ops = true →
      (p.run ops).1.Fenced ∧ (∀ r ∈ (p.run ops).2, (⟨[], r⟩ : DataPage).Fenced) ∧
        RangeMap.Steps p.abs ops (p.run ops).1.abs ((p.run ops).2.map BaseData.abs) := by
  induction ops with
  | nil => exact fun hp _ => ⟨hp, fun _ hr => absurd hr (List.not_mem_nil _), .nil _⟩
  | cons op ops ih =>
    intro p hp hOps
    obtain ⟨hOp, hRest⟩ := Bool.and_eq_true_iff.mp hOps
    obtain ⟨hStep, hOut, hSim⟩ := step_sim hp hOp
    obtain ⟨hRun, hRunOut, hSteps⟩ := ih hStep hRest
    refine ⟨hRun, fun r hr => ?_, ?_⟩
    · rcases List.mem_append.mp hr with hr | hr
      exacts [hOut r (Option.mem_toList.mp hr), hRunOut r hr]
    · simpa only [run, List.map_append] using hSim hSteps

/-- Every run a leaf takes, from a leaf whose records lie in its range, is a run of the map it
stands for along the same operations. On its range the final leaf reads what the run's writes,
applied in order, left of the leaf's read, and each split hands off as its right page exactly
the part of the map from its middle key on. The records stay in the ranges, and the final leaf
and the right pages split off partition the leaf's range: each key of it lies in the range of
exactly one of them. -/
theorem run_refines (p : DataPage) (hp : p.Fenced) (ops : List DataOp)
    (hOps : p.takesAll ops = true) :
    RangeMap.Steps p.abs ops (p.run ops).1.abs ((p.run ops).2.map BaseData.abs) ∧
      (∀ k, inRange (p.run ops).1.base.lowest (p.run ops).1.base.highest k = true →
        (p.run ops).1.read k = DataOp.applyWrites ops p.read k) ∧
      (p.run ops).1.Fenced ∧ (∀ r ∈ (p.run ops).2, (⟨[], r⟩ : DataPage).Fenced) ∧
      ∀ k, ((p.run ops).1.base :: (p.run ops).2).countP (fun b => inRange b.lowest b.highest k) =
        if inRange p.base.lowest p.base.highest k then 1 else 0 := by
  obtain ⟨hFenced, hOut, hSteps⟩ := run_sim ops hp hOps
  refine ⟨hSteps, fun k hk => ?_, hFenced, hOut, fun k => ?_⟩
  · have h := hSteps.read_final hk
    simp only [abs, RangeMap.restrict, if_pos hk] at h
    rw [h]
    exact DataOp.applyWrites_congr (if_pos (hSteps.inRange_of_final hk)) ops
  · have h := hSteps.countP_inRange k
    simp only [List.countP_cons, List.countP_map] at h ⊢
    exact h

def twoRecordLeaf : DataPage := ⟨[], twoRecordPage⟩

def putSplitDelete : List DataOp := [.write [3] (some [30]), .split, .write [1] none, .consolidate]

theorem run_refines_putSplitDelete :
    twoRecordLeaf.Fenced ∧ twoRecordLeaf.takesAll putSplitDelete = true ∧
      RangeMap.Steps twoRecordLeaf.abs putSplitDelete (twoRecordLeaf.run putSplitDelete).1.abs
        ((twoRecordLeaf.run putSplitDelete).2.map BaseData.abs) ∧
      (∀ k, inRange (twoRecordLeaf.run putSplitDelete).1.base.lowest
          (twoRecordLeaf.run putSplitDelete).1.base.highest k = true →
        (twoRecordLeaf.run putSplitDelete).1.read k =
          DataOp.applyWrites putSplitDelete twoRecordLeaf.read k) ∧
      (twoRecordLeaf.run putSplitDelete).1.Fenced ∧
      (∀ r ∈ (twoRecordLeaf.run putSplitDelete).2, (⟨[], r⟩ : DataPage).Fenced) ∧
      ∀ k, ((twoRecordLeaf.run putSplitDelete).1.base ::
          (twoRecordLeaf.run putSplitDelete).2).countP (fun b => inRange b.lowest b.highest k) =
        if inRange twoRecordLeaf.base.lowest twoRecordLeaf.base.highest k then 1 else 0 :=
  have hp : twoRecordLeaf.Fenced := fenced_of_base (by decide)
  ⟨hp, by decide, run_refines twoRecordLeaf hp putSplitDelete (by decide)⟩

end DataPage

end PhotonDb.Archive
