import PhotonDb.Codec.Buffer

/-! # Ordered maps

The archive pages keep their records and children in `std::collections::BTreeMap`s. A map is
modelled by its entries in key order; the proof that keys strictly increase is part of every
map, so no operation needs it as a premise. `get`, `insert` and `remove` follow the map's
meaning; `floor` is `range(..=k).next_back()`, the entry with the greatest key at most `k`.
-/

namespace PhotonDb.Archive

set_option autoImplicit false

structure BTreeMap (κ β : Type) [LinearOrder κ] where
  entries : List (κ × β)
  sorted : entries.Pairwise (fun a b => a.1 < b.1)

variable {κ β : Type} [LinearOrder κ]

namespace BTreeMap

def lookup (k : κ) : List (κ × β) → Option β
  | [] => none
  | e :: rest => if e.1 = k then some e.2 else lookup k rest

def insertEntry (k : κ) (v : β) : List (κ × β) → List (κ × β)
  | [] => [(k, v)]
  | e :: rest =>
    if k < e.1 then (k, v) :: e :: rest
    else if k = e.1 then (k, v) :: rest
    else e :: insertEntry k v rest

def floorEntry (k : κ) : List (κ × β) → Option (κ × β)
  | [] => none
  | e :: rest => if e.1 ≤ k then (floorEntry k rest).or (some e) else floorEntry k rest

theorem lookup_insertEntry (k k' : κ) (v : β) (l : List (κ × β)) :
    lookup k' (insertEntry k v l) = if k' = k then some v else lookup k' l := by
  by_cases h : k' = k
  · subst h
    induction l with
    | nil => simp [insertEntry, lookup]
    | cons e rest ih =>
      simp only [insertEntry]
      split_ifs with hLt hEq
      · simp [lookup]
      · simp [lookup]
      · simp only [lookup, if_neg fun h' : e.1 = k' => hEq h'.symm, ih, ↓reduceIte]
  · induction l with
    | nil => simp [insertEntry, lookup, h, Ne.symm h]
    | cons e rest ih =>
      simp only [insertEntry]
      split_ifs with hLt hEq
      · simp [lookup, Ne.symm h]
      · subst hEq; simp [lookup, Ne.symm h]
      · simp only [lookup, ih, h, if_false]

theorem mem_insertEntry {k : κ} {v : β} {l : List (κ × β)} {x : κ × β}
    (h : x ∈ insertEntry k v l) : x = (k, v) ∨ x ∈ l := by
  induction l with
  | nil => simpa [insertEntry] using h
  | cons e rest ih =>
    simp only [insertEntry] at h
    split_ifs at h <;> simp at h
    · rcases h with h | h | h <;> simp [h]
    · rcases h with h | h <;> simp [h]
    · rcases h with h | h
      · simp [h]
      · rcases ih h with h | h <;> simp [h]

theorem sorted_insertEntry (k : κ) (v : β) {l : List (κ × β)}
    (hl : l.Pairwise (fun a b => a.1 < b.1)) :
    (insertEntry k v l).Pairwise (fun a b => a.1 < b.1) := by
  induction l with
  | nil => simp [insertEntry]
  | cons e rest ih =>
    rw [List.pairwise_cons] at hl
    simp only [insertEntry]
    split_ifs with hLt hEq
    · exact .cons (by
        intro y hy
        rcases List.mem_cons.mp hy with rfl | hy
        · exact hLt
        · exact hLt.trans (hl.1 y hy)) (.cons hl.1 hl.2)
    · subst hEq
      exact .cons hl.1 hl.2
    · refine .cons (fun y hy => ?_) (ih hl.2)
      rcases mem_insertEntry hy with rfl | hy
      · exact lt_of_le_of_ne (not_lt.mp hLt) (Ne.symm hEq)
      · exact hl.1 y hy

theorem lookup_eq_none_of_ne {k : κ} {l : List (κ × β)} (h : ∀ x ∈ l, x.1 ≠ k) :
    lookup k l = none := by
  induction l with
  | nil => rfl
  | cons e rest ih =>
    simp [lookup, h e (List.mem_cons_self _ _), ih fun x hx => h x (List.mem_cons_of_mem _ hx)]

theorem lookup_eq_none_of_lt {k : κ} {l : List (κ × β)} (h : ∀ x ∈ l, k < x.1) :
    lookup k l = none :=
  lookup_eq_none_of_ne fun x hx => (h x hx).ne'

theorem lookup_filter (k : κ) (p : κ → β → Bool) {l : List (κ × β)}
    (hl : l.Pairwise (fun a b => a.1 < b.1)) :
    lookup k (l.filter fun e => p e.1 e.2) = (lookup k l).filter (p k) := by
  induction l with
  | nil => rfl
  | cons e rest ih =>
    rw [List.pairwise_cons] at hl
    by_cases hKey : e.1 = k
    · subst hKey
      have hRest := lookup_eq_none_of_lt (k := e.1) hl.1
      have hFilter : lookup e.1 (rest.filter fun e => p e.1 e.2) = none := by
        rw [ih hl.2, hRest]; rfl
      by_cases hp : p e.1 e.2 <;> simp [List.filter_cons, hp, lookup, hFilter, Option.filter]
    · by_cases hp : p e.1 e.2 <;> simp [List.filter_cons, hp, lookup, hKey, ih hl.2]

theorem lookup_append (k : κ) (l₁ l₂ : List (κ × β)) :
    lookup k (l₁ ++ l₂) = (lookup k l₁).or (lookup k l₂) := by
  induction l₁ with
  | nil => rfl
  | cons e rest ih => by_cases h : e.1 = k <;> simp [lookup, h, ih]

theorem mem_of_lookup_eq_some {k : κ} {v : β} {l : List (κ × β)} (h : lookup k l = some v) :
    (k, v) ∈ l := by
  induction l with
  | nil => cases h
  | cons e rest ih =>
    simp only [lookup] at h
    split_ifs at h with hKey
    · cases h; subst hKey; exact List.mem_cons_self _ _
    · exact List.mem_cons_of_mem _ (ih h)

theorem lookup_eq_some_of_mem {k : κ} {v : β} {l : List (κ × β)}
    (hl : l.Pairwise (fun a b => a.1 < b.1)) (h : (k, v) ∈ l) : lookup k l = some v := by
  induction l with
  | nil => cases h
  | cons e rest ih =>
    rw [List.pairwise_cons] at hl
    rcases List.mem_cons.mp h with rfl | h
    · simp [lookup]
    · have hNe : e.1 ≠ k := (hl.1 _ h).ne
      simp [lookup, hNe, ih hl.2 h]

theorem eq_of_lookup_eq {l₁ l₂ : List (κ × β)} (h₁ : l₁.Pairwise (fun a b => a.1 < b.1))
    (h₂ : l₂.Pairwise (fun a b => a.1 < b.1)) (h : ∀ k, lookup k l₁ = lookup k l₂) : l₁ = l₂ := by
  induction l₁ generalizing l₂ with
  | nil =>
    cases l₂ with
    | nil => rfl
    | cons e _ => simpa [lookup] using h e.1
  | cons e rest ih =>
    cases l₂ with
    | nil => simpa [lookup] using h e.1
    | cons e' rest' =>
      rw [List.pairwise_cons] at h₁ h₂
      -- the heads carry the least key of each list, so they agree
      have hLe : ∀ {x y : κ × β} {r r' : List (κ × β)}, (∀ a ∈ r', y.1 < a.1) →
          (∀ k, lookup k (x :: r) = lookup k (y :: r')) → y.1 ≤ x.1 := by
        intro x y r r' hy hxy
        by_contra hLt
        have hx := hxy x.1
        rw [lookup, if_pos rfl, lookup, if_neg (ne_of_gt (not_le.mp hLt)),
          lookup_eq_none_of_lt fun a ha => (not_le.mp hLt).trans (hy a ha)] at hx
        cases hx
      have hKey : e.1 = e'.1 := le_antisymm (hLe h₁.1 fun k => (h k).symm) (hLe h₂.1 h)
      have hVal : e.2 = e'.2 := by simpa [lookup, hKey] using h e'.1
      have hHead : e = e' := Prod.ext hKey hVal
      subst hHead
      refine congrArg _ (ih h₁.2 h₂.2 fun k => ?_)
      by_cases hk : e.1 = k
      · subst hk
        rw [lookup_eq_none_of_lt h₁.1, lookup_eq_none_of_lt h₂.1]
      · simpa [lookup, hk] using h k

theorem floorEntry_eq_none {k : κ} {l : List (κ × β)} (h : floorEntry k l = none) :
    ∀ x ∈ l, k < x.1 := by
  induction l with
  | nil => simp
  | cons e rest ih =>
    simp only [floorEntry] at h
    split_ifs at h with hLe
    · cases hRest : floorEntry k rest <;> simp [hRest] at h
    · intro x hx
      rcases List.mem_cons.mp hx with rfl | hx
      · exact not_le.mp hLe
      · exact ih h x hx

theorem floorEntry_eq_some {k : κ} {l : List (κ × β)} {e : κ × β}
    (hl : l.Pairwise (fun a b => a.1 < b.1)) (h : floorEntry k l = some e) :
    e ∈ l ∧ e.1 ≤ k ∧ ∀ x ∈ l, x.1 ≤ k → x.1 ≤ e.1 := by
  induction l with
  | nil => cases h
  | cons d rest ih =>
    rw [List.pairwise_cons] at hl
    simp only [floorEntry] at h
    split_ifs at h with hLe
    · cases hRest : floorEntry k rest with
      | none =>
        simp only [hRest, Option.none_or, Option.some.injEq] at h
        subst h
        refine ⟨List.mem_cons_self _ _, hLe, fun x hx hxk => ?_⟩
        rcases List.mem_cons.mp hx with rfl | hx
        · exact le_rfl
        · exact absurd hxk (not_le.mpr (floorEntry_eq_none hRest x hx))
      | some e' =>
        simp only [hRest, Option.or_some, Option.some.injEq] at h
        subst h
        obtain ⟨hMem, hek, hMax⟩ := ih hl.2 hRest
        refine ⟨List.mem_cons_of_mem _ hMem, hek, fun x hx hxk => ?_⟩
        rcases List.mem_cons.mp hx with rfl | hx
        · exact (hl.1 _ hMem).le
        · exact hMax x hx hxk
    · obtain ⟨hMem, hek, hMax⟩ := ih hl.2 h
      refine ⟨List.mem_cons_of_mem _ hMem, hek, fun x hx hxk => ?_⟩
      rcases List.mem_cons.mp hx with rfl | hx
      · exact absurd hxk hLe
      · exact hMax x hx hxk

theorem floorEntry_map {γ : Type} (f : β → γ) (k : κ) (l : List (κ × β)) :
    floorEntry k (l.map fun e => (e.1, f e.2)) = (floorEntry k l).map fun e => (e.1, f e.2) := by
  induction l with
  | nil => rfl
  | cons e rest ih =>
    simp only [List.map_cons, floorEntry, ih]
    split_ifs <;> cases floorEntry k rest <;> rfl

theorem lookup_map {γ : Type} (f : β → γ) (k : κ) (l : List (κ × β)) :
    lookup k (l.map fun e => (e.1, f e.2)) = (lookup k l).map f := by
  induction l with
  | nil => rfl
  | cons e rest ih => by_cases h : e.1 = k <;> simp [lookup, h, ih]

/-- `BTreeMap::new()`. -/
def empty : BTreeMap κ β := ⟨[], .nil⟩

def len (m : BTreeMap κ β) : Nat := m.entries.length

def get (m : BTreeMap κ β) (k : κ) : Option β := lookup k m.entries

/-- `insert` returns the map and the value it replaced. -/
def insert (m : BTreeMap κ β) (k : κ) (v : β) : BTreeMap κ β × Option β :=
  (⟨insertEntry k v m.entries, sorted_insertEntry k v m.sorted⟩, m.get k)

/-- `remove` returns the map and the value it removed. -/
def remove (m : BTreeMap κ β) (k : κ) : BTreeMap κ β × Option β :=
  (⟨m.entries.filter (fun e => e.1 ≠ k), m.sorted.filter _⟩, m.get k)

def retain (m : BTreeMap κ β) (p : κ → β → Bool) : BTreeMap κ β :=
  ⟨m.entries.filter (fun e => p e.1 e.2), m.sorted.filter _⟩

/-- `entry(k).or_insert(v)`: inserts only when `k` is vacant. -/
def orInsert (m : BTreeMap κ β) (k : κ) (v : β) : BTreeMap κ β :=
  match m.get k with
  | some _ => m
  | none => (m.insert k v).1

/-- `keys().nth(n)`. -/
def nthKey (m : BTreeMap κ β) (n : Nat) : Option κ := m.entries[n]?.map (·.1)

/-- `range(..=k).next_back()`. -/
def floor (m : BTreeMap κ β) (k : κ) : Option (κ × β) := floorEntry k m.entries

def map {γ : Type} (f : β → γ) (m : BTreeMap κ β) : BTreeMap κ γ :=
  ⟨m.entries.map fun e => (e.1, f e.2), List.pairwise_map.mpr m.sorted⟩

@[simp] theorem get_empty (k : κ) : (empty : BTreeMap κ β).get k = none := rfl

@[simp] theorem get_insert (m : BTreeMap κ β) (k k' : κ) (v : β) :
    (m.insert k v).1.get k' = if k' = k then some v else m.get k' :=
  lookup_insertEntry k k' v m.entries

@[simp] theorem insert_snd (m : BTreeMap κ β) (k : κ) (v : β) : (m.insert k v).2 = m.get k := rfl

@[simp] theorem get_remove (m : BTreeMap κ β) (k k' : κ) :
    (m.remove k).1.get k' = if k' = k then none else m.get k' := by
  simp only [remove, get]
  rw [lookup_filter k' (fun a _ => decide (a ≠ k)) m.sorted]
  by_cases h : k' = k <;> cases lookup k' m.entries <;> simp [h, Option.filter]

@[simp] theorem remove_snd (m : BTreeMap κ β) (k : κ) : (m.remove k).2 = m.get k := rfl

@[simp] theorem get_retain (m : BTreeMap κ β) (p : κ → β → Bool) (k : κ) :
    (m.retain p).get k = (m.get k).filter (p k) :=
  lookup_filter k p m.sorted

theorem get_retain_of_true {m : BTreeMap κ β} {p : κ → β → Bool} {k : κ}
    (h : ∀ v, p k v = true) : (m.retain p).get k = m.get k := by
  rw [get_retain]
  cases m.get k <;> simp [Option.filter, h]

theorem get_retain_of_false {m : BTreeMap κ β} {p : κ → β → Bool} {k : κ}
    (h : ∀ v, p k v = false) : (m.retain p).get k = none := by
  rw [get_retain]
  cases m.get k <;> simp [Option.filter, h]

@[simp] theorem get_orInsert (m : BTreeMap κ β) (k k' : κ) (v : β) :
    (m.orInsert k v).get k' = if k' = k then (m.get k).or (some v) else m.get k' := by
  unfold orInsert
  split <;> rename_i hk <;> by_cases h : k' = k <;> simp [h, hk]

@[simp] theorem get_map {γ : Type} (f : β → γ) (m : BTreeMap κ β) (k : κ) :
    (m.map f).get k = (m.get k).map f :=
  lookup_map f k m.entries

@[simp] theorem floor_map {γ : Type} (f : β → γ) (m : BTreeMap κ β) (k : κ) :
    (m.map f).floor k = (m.floor k).map fun e => (e.1, f e.2) :=
  floorEntry_map f k m.entries

@[ext] theorem ext {m₁ m₂ : BTreeMap κ β} (h : ∀ k, m₁.get k = m₂.get k) : m₁ = m₂ := by
  cases m₁; cases m₂
  congr
  exact eq_of_lookup_eq ‹_› ‹_› h

section Floor

variable {m m₁ m₂ : BTreeMap κ β}

theorem mem_entries_iff {k : κ} {v : β} : (k, v) ∈ m.entries ↔ m.get k = some v :=
  ⟨lookup_eq_some_of_mem m.sorted, mem_of_lookup_eq_some⟩

theorem floor_eq_some_iff {k a : κ} {v : β} :
    m.floor k = some (a, v) ↔ m.get a = some v ∧ a ≤ k ∧ ∀ b, a < b → b ≤ k → m.get b = none := by
  constructor
  · intro h
    obtain ⟨hMem, hak, hMax⟩ := floorEntry_eq_some m.sorted h
    refine ⟨mem_entries_iff.mp hMem, hak, fun b hab hbk => ?_⟩
    cases hb : m.get b with
    | none => rfl
    | some w => exact absurd (hMax _ (mem_entries_iff.mpr hb) hbk) (not_le.mpr hab)
  · rintro ⟨hGet, hak, hGap⟩
    cases h : m.floor k with
    | none => exact absurd hak (not_le.mpr (floorEntry_eq_none h _ (mem_entries_iff.mpr hGet)))
    | some e =>
      obtain ⟨c, w⟩ := e
      obtain ⟨hMem, hck, hMax⟩ := floorEntry_eq_some m.sorted h
      have hac : a ≤ c := hMax _ (mem_entries_iff.mpr hGet) hak
      have hca : c = a := by
        by_contra hne
        have hNone := hGap c (lt_of_le_of_ne hac (Ne.symm hne)) hck
        rw [mem_entries_iff.mp hMem] at hNone
        cases hNone
      subst hca
      rw [mem_entries_iff.mp hMem] at hGet
      cases hGet
      rfl

theorem floor_eq_none_iff {k : κ} : m.floor k = none ↔ ∀ b ≤ k, m.get b = none := by
  constructor
  · intro h b hbk
    cases hb : m.get b with
    | none => rfl
    | some w => exact absurd hbk (not_le.mpr (floorEntry_eq_none h _ (mem_entries_iff.mpr hb)))
  · intro h
    cases hf : m.floor k with
    | none => rfl
    | some e =>
      obtain ⟨hGet, hak, -⟩ := floor_eq_some_iff.mp hf
      rw [h e.1 hak] at hGet
      cases hGet

theorem floor_congr {k : κ} (h : ∀ b ≤ k, m₁.get b = m₂.get b) : m₁.floor k = m₂.floor k := by
  cases h₂ : m₂.floor k with
  | none => exact floor_eq_none_iff.mpr fun b hb => (h b hb).trans (floor_eq_none_iff.mp h₂ b hb)
  | some e =>
    obtain ⟨hGet, hak, hGap⟩ := floor_eq_some_iff.mp h₂
    exact floor_eq_some_iff.mpr
      ⟨(h _ hak).trans hGet, hak, fun b hab hbk => (h b hbk).trans (hGap b hab hbk)⟩

theorem floor_congr_above {a k : κ} (hak : a ≤ k) (ha : m₂.get a ≠ none)
    (h : ∀ b, a ≤ b → b ≤ k → m₁.get b = m₂.get b) : m₁.floor k = m₂.floor k := by
  cases h₂ : m₂.floor k with
  | none => exact absurd (floor_eq_none_iff.mp h₂ a hak) ha
  | some e =>
    obtain ⟨hGet, hck, hGap⟩ := floor_eq_some_iff.mp h₂
    have hac : a ≤ e.1 := not_lt.mp fun hca => ha (hGap a hca hak)
    exact floor_eq_some_iff.mpr ⟨(h _ hac hck).trans hGet, hck,
      fun b hcb hbk => (h b (hac.trans hcb.le) hbk).trans (hGap b hcb hbk)⟩

theorem floor_map_congr {γ : Type} (f : β → γ) {k : κ}
    (h : ∀ b ≤ k, (m₁.get b).map f = (m₂.get b).map f) :
    (m₁.floor k).map (fun e => f e.2) = (m₂.floor k).map (fun e => f e.2) := by
  have hFloor : (m₁.map f).floor k = (m₂.map f).floor k :=
    floor_congr fun b hb => by simp only [get_map, h b hb]
  simp only [floor_map] at hFloor
  simpa only [Option.map_map, Function.comp_def] using congrArg (Option.map Prod.snd) hFloor

end Floor

theorem nthKey_eq_none_iff {m : BTreeMap κ β} {n : Nat} : m.nthKey n = none ↔ m.len ≤ n := by
  simp [nthKey, len]

theorem drop_of_nthKey_eq_some {m : BTreeMap κ β} {n : Nat} {key : κ}
    (h : m.nthKey n = some key) : ∃ v rest, m.entries.drop n = (key, v) :: rest := by
  obtain ⟨e, he, rfl⟩ := Option.map_eq_some'.mp h
  obtain ⟨hn, rfl⟩ := List.getElem?_eq_some_iff.mp he
  exact ⟨_, _, List.drop_eq_getElem_cons hn⟩

section Split

variable {l : List (κ × β)} {n : Nat} {e : κ × β} {rest : List (κ × β)}

theorem lt_of_mem_take (hl : l.Pairwise (fun a b => a.1 < b.1)) (h : l.drop n = e :: rest)
    {x : κ × β} (hx : x ∈ l.take n) : x.1 < e.1 := by
  rw [← List.take_append_drop n l, List.pairwise_append, h] at hl
  exact hl.2.2 x hx e (List.mem_cons_self _ _)

theorem le_of_mem_drop (hl : l.Pairwise (fun a b => a.1 < b.1)) (h : l.drop n = e :: rest)
    {x : κ × β} (hx : x ∈ l.drop n) : e.1 ≤ x.1 := by
  have hs := hl.sublist (List.drop_sublist n l)
  rw [h] at hs hx
  rcases List.mem_cons.mp hx with rfl | hx
  · exact le_rfl
  · exact ((List.pairwise_cons.mp hs).1 x hx).le

theorem lookup_take_or_drop (hl : l.Pairwise (fun a b => a.1 < b.1)) (h : l.drop n = e :: rest)
    (k : κ) : lookup k (l.take n) = none ∨ lookup k (l.drop n) = none := by
  cases hTake : lookup k (l.take n) with
  | none => exact .inl rfl
  | some v =>
    refine .inr (lookup_eq_none_of_ne fun x hx hxk => ?_)
    have hBelow := lt_of_mem_take hl h (mem_of_lookup_eq_some hTake)
    exact absurd (le_of_mem_drop hl h hx) (not_le.mpr (hxk ▸ hBelow))

end Split

theorem insertEntry_of_lt {k : κ} {v : β} {l : List (κ × β)} (h : ∀ x ∈ l, x.1 < k) :
    insertEntry k v l = l ++ [(k, v)] := by
  induction l with
  | nil => rfl
  | cons e rest ih =>
    have hek := h e (List.mem_cons_self _ _)
    simp only [insertEntry, not_lt.mpr hek.le, if_false, hek.ne', List.cons_append,
      ih fun x hx => h x (List.mem_cons_of_mem _ hx)]

section Weight

variable (w : κ → β → Nat)

def weight (m : BTreeMap κ β) : Nat := (m.entries.map fun e => w e.1 e.2).sum

theorem weight_insertEntry (k : κ) (v : β) {l : List (κ × β)}
    (hl : l.Pairwise (fun a b => a.1 < b.1)) :
    ((insertEntry k v l).map fun e => w e.1 e.2).sum + ((lookup k l).map (w k)).getD 0 =
      (l.map fun e => w e.1 e.2).sum + w k v := by
  induction l with
  | nil => simp [insertEntry, lookup]
  | cons e rest ih =>
    rw [List.pairwise_cons] at hl
    simp only [insertEntry]
    split_ifs with hLt hEq
    · have hNone : lookup k (e :: rest) = none :=
        lookup_eq_none_of_lt fun x hx => by
          rcases List.mem_cons.mp hx with rfl | hx
          · exact hLt
          · exact hLt.trans (hl.1 x hx)
      simp only [hNone, List.map_cons, List.sum_cons, Option.map_none', Option.getD_none]
      omega
    · subst hEq
      simp only [lookup, ↓reduceIte, List.map_cons, List.sum_cons, Option.map_some',
        Option.getD_some]
      omega
    · have hNe : e.1 ≠ k := fun h => hEq h.symm
      have hRest := ih hl.2
      simp only [lookup, if_neg hNe, List.map_cons, List.sum_cons]
      omega

theorem weight_filter_ne (k : κ) {l : List (κ × β)} (hl : l.Pairwise (fun a b => a.1 < b.1)) :
    ((l.filter fun e => e.1 ≠ k).map fun e => w e.1 e.2).sum + ((lookup k l).map (w k)).getD 0 =
      (l.map fun e => w e.1 e.2).sum := by
  induction l with
  | nil => rfl
  | cons e rest ih =>
    rw [List.pairwise_cons] at hl
    by_cases hKey : e.1 = k
    · have hNone := lookup_eq_none_of_lt (k := k) (hKey ▸ hl.1)
      have hRest := ih hl.2
      simp only [hNone, Option.map_none', Option.getD_none, Nat.add_zero] at hRest
      simp only [List.filter_cons, hKey, ne_eq, not_true_eq_false, decide_False,
        Bool.false_eq_true, if_false, lookup, if_true, Option.map_some', Option.getD_some,
        List.map_cons, List.sum_cons, hRest]
      omega
    · simp only [List.filter_cons, hKey, ne_eq, not_false_eq_true, decide_True, if_true,
        lookup, if_false, List.map_cons, List.sum_cons] at ih ⊢
      have := ih hl.2
      omega

theorem weight_insert (m : BTreeMap κ β) (k : κ) (v : β) :
    weight w (m.insert k v).1 + ((m.get k).map (w k)).getD 0 = weight w m + w k v :=
  weight_insertEntry w k v m.sorted

theorem weight_remove (m : BTreeMap κ β) (k : κ) :
    weight w (m.remove k).1 + ((m.get k).map (w k)).getD 0 = weight w m :=
  weight_filter_ne w k m.sorted

theorem weight_le_of_get (m : BTreeMap κ β) {k : κ} {v : β} (h : m.get k = some v) :
    w k v ≤ weight w m := by
  have := weight_remove w m k
  rw [h] at this
  simp only [Option.map_some', Option.getD_some] at this
  omega

/-- The loops that recompute a page's size, `fold(0, |acc, (k, v)| acc + ...)`, compute its
weight. -/
theorem foldl_eq_weight {f : Nat → κ × β → Nat} (hf : ∀ acc e, f acc e = acc + w e.1 e.2)
    (m : BTreeMap κ β) : m.entries.foldl f 0 = weight w m := by
  have hStep : f = fun acc e => acc + w e.1 e.2 := funext fun acc => funext (hf acc)
  subst hStep
  rw [weight, List.sum_eq_foldl, List.foldl_map]

end Weight

end BTreeMap

end PhotonDb.Archive
