import PhotonDb.Engine.Iter

/-! # The two sorted pages agree

`engine/src/tree/page/sorted_page.rs` rewrites `page/sorted_page.rs`. For the same entries
the two builders write the same bytes, and the two readers return the same entries. The
binary searches probe the same midpoints: the engine compares the target with the key where
the old page compares the key with the target, and returns the index where the old page
returns `Ok` or `Err` of it. So the engine `rank` is the old one with `Ok` and `Err` merged,
which is what the old `seek` does with it, and the two iterators, driven by the same calls,
return the same entries. None of this needs the keys to be sorted.
-/

namespace PhotonDb.Page.SortedPageIter

set_option autoImplicit false

variable {K V : Type}

def run [DecodeFrom K] [DecodeFrom V] [LinearOrder K] :
    SortedPageIter K V → List (IterOp K) → Option (List (Option (K × V)) × SortedPageIter K V)
  | it, [] => some ([], it)
  | it, .next :: ops => it.next >>= fun r => (run r.2 ops).map fun s => (r.1 :: s.1, s.2)
  | it, .seek target :: ops => it.seek target >>= fun it => run it ops
  | it, .rewind :: ops => run it.rewind ops

end PhotonDb.Page.SortedPageIter

namespace PhotonDb.Engine

open PhotonDb.Page (PrefixCodec Valid encodedItems)

set_option autoImplicit false

variable {K V : Type}

section Agreement

variable [PrefixCodec K] [PrefixCodec V] {E : List (K × V)}

theorem get_ofItems_agree (hValid : ∀ e ∈ E, Valid e.1 ∧ Valid e.2) (i : Nat) :
    (Page.SortedPageRef.ofItems (encodedItems E) : Page.SortedPageRef K V).get i =
      (SortedPageRef.ofItems (encodedItems E) : SortedPageRef K V).get i := by
  rcases Nat.lt_or_ge i E.length with hi | hi
  · rw [Page.SortedPageRef.get_ofItems E hValid i hi, SortedPageRef.get_ofItems E hValid i hi]
  · rw [Page.SortedPageRef.get_ofItems_of_le E i hi, SortedPageRef.get_ofItems_of_le E i hi]

structure IterAgree (E : List (K × V)) (old : Page.SortedPageIter K V)
    (it : SortedPageIter K V) : Prop where
  old_page : old.page = Page.SortedPageRef.ofItems (encodedItems E)
  page : it.page = SortedPageRef.ofItems (encodedItems E)
  index : old.nextIndex = it.nextIndex

theorem IterAgree.next (hValid : ∀ e ∈ E, Valid e.1 ∧ Valid e.2) {old : Page.SortedPageIter K V}
    {it : SortedPageIter K V} (h : IterAgree E old it) :
    ∃ item old' it', old.next = some (item, old') ∧ it.next = some (item, it') ∧
      IterAgree E old' it' := by
  obtain ⟨oldPage, i⟩ := old
  obtain ⟨page, j, last⟩ := it
  obtain ⟨hOld, hPage, hIndex⟩ := h
  dsimp only at hOld hPage hIndex
  subst hOld hPage hIndex
  rcases Nat.lt_or_ge i E.length with hi | hi
  · exact ⟨some E[i], ⟨Page.SortedPageRef.ofItems (encodedItems E), i + 1⟩,
      ⟨SortedPageRef.ofItems (encodedItems E), i + 1, some E[i]⟩,
      by simp [Page.SortedPageIter.next, Page.SortedPageRef.get_ofItems E hValid i hi],
      by simp [SortedPageIter.next, SortedPageRef.get_ofItems E hValid i hi], rfl, rfl, rfl⟩
  · exact ⟨none, ⟨Page.SortedPageRef.ofItems (encodedItems E), i⟩,
      ⟨SortedPageRef.ofItems (encodedItems E), i, none⟩,
      by simp [Page.SortedPageIter.next, Page.SortedPageRef.get_ofItems_of_le E i hi],
      by simp [SortedPageIter.next, SortedPageRef.get_ofItems_of_le E i hi], rfl, rfl, rfl⟩

theorem IterAgree.seek [LinearOrder K] (hValid : ∀ e ∈ E, Valid e.1 ∧ Valid e.2)
    {old : Page.SortedPageIter K V} {it : SortedPageIter K V} (h : IterAgree E old it)
    (target : K) :
    ∃ old' it', old.seek target = some old' ∧ it.seek target = some it' ∧
      IterAgree E old' it' := by
  obtain ⟨r, hOld, hNew⟩ := SortedPageRef.rank_ofItems_agree (K := K) (V := V) hValid target
  refine ⟨{ old with nextIndex := rankIndex r }, { it with nextIndex := rankIndex r, last := none },
    ?_, by simp [SortedPageIter.seek, h.page, hNew], h.old_page, h.page, rfl⟩
  cases r <;> simp [Page.SortedPageIter.seek, h.old_page, hOld, rankIndex]

theorem IterAgree.rewind {old : Page.SortedPageIter K V} {it : SortedPageIter K V}
    (h : IterAgree E old it) : IterAgree E old.rewind it.rewind :=
  ⟨h.old_page, h.page, rfl⟩

/-- Over every sequence of calls, the two iterators return the same entries and end at the
same index. -/
theorem IterAgree.run [LinearOrder K] (hValid : ∀ e ∈ E, Valid e.1 ∧ Valid e.2)
    (ops : List (IterOp K)) :
    ∀ {old : Page.SortedPageIter K V} {it : SortedPageIter K V}, IterAgree E old it →
      ∃ items old' it', old.run ops = some (items, old') ∧ it.run ops = some (items, it') ∧
        IterAgree E old' it' := by
  induction ops with
  | nil => exact fun h => ⟨[], _, _, rfl, rfl, h⟩
  | cons op ops ih =>
    intro old it h
    cases op with
    | next =>
      obtain ⟨item, old₁, it₁, hOld, hNew, h₁⟩ := h.next hValid
      obtain ⟨items, old₂, it₂, hOldRun, hNewRun, h₂⟩ := ih h₁
      exact ⟨item :: items, old₂, it₂, by simp [Page.SortedPageIter.run, hOld, hOldRun],
        by simp [SortedPageIter.run, hNew, hNewRun], h₂⟩
    | seek target =>
      obtain ⟨old₁, it₁, hOld, hNew, h₁⟩ := h.seek hValid target
      obtain ⟨items, old₂, it₂, hOldRun, hNewRun, h₂⟩ := ih h₁
      exact ⟨items, old₂, it₂, by simp [Page.SortedPageIter.run, hOld, hOldRun],
        by simp [SortedPageIter.run, hNew, hNewRun], h₂⟩
    | rewind => exact ih h.rewind

end Agreement

section Versions

variable [PrefixCodec K] [PrefixCodec V] {ε : Type}

/-- Both builders write the bytes of the spec's layout, which both readers read as the page
of the entries. -/
theorem build_versions (E : List (K × V))
    (hSize : (Page.SortedPageBuilder.new.withIter E).size < 2 ^ 32) (content : Bytes)
    (hContent : content.length = (Page.SortedPageBuilder.new.withIter E).size)
    (alloc : Nat → Except ε Bytes) (ptr : Bytes)
    (hAlloc : alloc (SortedPageBuilder.new.addAll E).size = .ok ptr)
    (hPtr : ptr.length = (SortedPageBuilder.new.addAll E).size) :
    (Page.SortedPageBuilder.new.withIter E).build content = some (Page.layout (encodedItems E)) ∧
      SortedPageBuilder.new.buildFromIter alloc E =
        some (.ok ⟨Page.Encoder.written (Page.layout (encodedItems E)) [], E.length⟩) ∧
      Page.SortedPageRef.new (Page.layout (encodedItems E)) =
        some (Page.SortedPageRef.ofItems (encodedItems E) : Page.SortedPageRef K V) ∧
      SortedPageRef.new (Page.layout (encodedItems E)) =
        some (SortedPageRef.ofItems (encodedItems E) : SortedPageRef K V) := by
  rw [Page.withIter_new] at hSize
  exact ⟨Page.build_withIter E content hContent, buildFromIter_new E alloc ptr hAlloc hPtr,
    Page.SortedPageRef.new_layout _ hSize, SortedPageRef.new_layout _ hSize⟩

/-- For the same entries, the two builders write the same bytes, and on them the two
readers have the same length, return the same entry at every index, and agree on `rank`:
both searches end, and the engine returns the index of the old `Ok` or `Err`. -/
theorem sortedPage_versions_agree [LinearOrder K] (E : List (K × V)) (hValid : ∀ e ∈ E, Valid e.1 ∧ Valid e.2)
    (hSize : (Page.SortedPageBuilder.new.withIter E).size < 2 ^ 32) (content : Bytes)
    (hContent : content.length = (Page.SortedPageBuilder.new.withIter E).size)
    (alloc : Nat → Except ε Bytes) (ptr : Bytes)
    (hAlloc : alloc (SortedPageBuilder.new.addAll E).size = .ok ptr)
    (hPtr : ptr.length = (SortedPageBuilder.new.addAll E).size) :
    ∃ (bytes : Bytes) (buf : SortedPageBuf) (old : Page.SortedPageRef K V)
      (page : SortedPageRef K V),
      (Page.SortedPageBuilder.new.withIter E).build content = some bytes ∧
      SortedPageBuilder.new.buildFromIter alloc E = some (.ok buf) ∧ buf.content.buf = bytes ∧
      Page.SortedPageRef.new bytes = some old ∧ buf.asRef = some page ∧
      old.len = page.len ∧ (∀ i, old.get i = page.get i) ∧
      ∀ target : K, ∃ r, old.rank target = some r ∧ page.rank target = some (rankIndex r) := by
  obtain ⟨hOld, hNew, hOldRef, hNewRef⟩ :=
    build_versions E hSize content hContent alloc ptr hAlloc hPtr
  refine ⟨_, _, _, _, hOld, hNew, by simp [Page.Encoder.written], hOldRef,
    by simpa [SortedPageBuf.asRef, Page.Encoder.written] using hNewRef, by simp,
    get_ofItems_agree hValid, SortedPageRef.rank_ofItems_agree hValid⟩

theorem sortedPage_versions_agree_twoEntries :
    (∀ e ∈ twoEntries, Valid e.1 ∧ Valid e.2) ∧
    (Page.SortedPageBuilder.new.withIter twoEntries).size < 2 ^ 32 ∧
    (List.replicate 28 0).length = (Page.SortedPageBuilder.new.withIter twoEntries).size ∧
    zeroAlloc (SortedPageBuilder.new.addAll twoEntries).size = .ok (List.replicate 28 0) ∧
    (List.replicate 28 0).length = (SortedPageBuilder.new.addAll twoEntries).size ∧
    ∃ (bytes : Bytes) (buf : SortedPageBuf) (old : Page.SortedPageRef Bytes Bytes)
      (page : SortedPageRef Bytes Bytes),
      (Page.SortedPageBuilder.new.withIter twoEntries).build (List.replicate 28 0) = some bytes ∧
      SortedPageBuilder.new.buildFromIter zeroAlloc twoEntries = some (.ok buf) ∧
      buf.content.buf = bytes ∧ Page.SortedPageRef.new bytes = some old ∧ buf.asRef = some page ∧
      old.len = page.len ∧ (∀ i, old.get i = page.get i) ∧
      ∀ target : Bytes, ∃ r, old.rank target = some r ∧ page.rank target = some (rankIndex r) :=
  ⟨by decide, by decide, by decide, rfl, by decide,
    sortedPage_versions_agree twoEntries (by decide) (by decide) _ (by decide) zeroAlloc _ rfl
      (by decide)⟩

/-- For the same entries, the iterators of the two readers, driven by the same calls, return
the same entries. -/
theorem sortedPage_versions_iter [LinearOrder K] (E : List (K × V)) (hValid : ∀ e ∈ E, Valid e.1 ∧ Valid e.2)
    (hSize : (Page.SortedPageBuilder.new.withIter E).size < 2 ^ 32) (content : Bytes)
    (hContent : content.length = (Page.SortedPageBuilder.new.withIter E).size)
    (alloc : Nat → Except ε Bytes) (ptr : Bytes)
    (hAlloc : alloc (SortedPageBuilder.new.addAll E).size = .ok ptr)
    (hPtr : ptr.length = (SortedPageBuilder.new.addAll E).size) :
    ∃ (bytes : Bytes) (buf : SortedPageBuf) (old : Page.SortedPageRef K V)
      (page : SortedPageRef K V),
      (Page.SortedPageBuilder.new.withIter E).build content = some bytes ∧
      Page.SortedPageRef.new bytes = some old ∧
      SortedPageBuilder.new.buildFromIter alloc E = some (.ok buf) ∧ buf.asRef = some page ∧
      ∀ ops : List (IterOp K), ∃ items old' it',
        (Page.SortedPageIter.new old).run ops = some (items, old') ∧
          page.iter.run ops = some (items, it') := by
  obtain ⟨hOld, hNew, hOldRef, hNewRef⟩ :=
    build_versions E hSize content hContent alloc ptr hAlloc hPtr
  refine ⟨_, _, _, _, hOld, hOldRef, hNew,
    by simpa [SortedPageBuf.asRef, Page.Encoder.written] using hNewRef, fun ops => ?_⟩
  obtain ⟨items, old', it', hOldRun, hNewRun, -⟩ :=
    IterAgree.run hValid ops (⟨rfl, rfl, rfl⟩ : IterAgree E
      (Page.SortedPageIter.new (Page.SortedPageRef.ofItems (encodedItems E)))
      (SortedPageRef.ofItems (encodedItems E)).iter)
  exact ⟨items, old', it', hOldRun, hNewRun⟩

theorem sortedPage_versions_iter_twoEntries :
    (∀ e ∈ twoEntries, Valid e.1 ∧ Valid e.2) ∧
    (Page.SortedPageBuilder.new.withIter twoEntries).size < 2 ^ 32 ∧
    (List.replicate 28 0).length = (Page.SortedPageBuilder.new.withIter twoEntries).size ∧
    zeroAlloc (SortedPageBuilder.new.addAll twoEntries).size = .ok (List.replicate 28 0) ∧
    (List.replicate 28 0).length = (SortedPageBuilder.new.addAll twoEntries).size ∧
    ∃ (bytes : Bytes) (buf : SortedPageBuf) (old : Page.SortedPageRef Bytes Bytes)
      (page : SortedPageRef Bytes Bytes),
      (Page.SortedPageBuilder.new.withIter twoEntries).build (List.replicate 28 0) = some bytes ∧
      Page.SortedPageRef.new bytes = some old ∧
      SortedPageBuilder.new.buildFromIter zeroAlloc twoEntries = some (.ok buf) ∧
      buf.asRef = some page ∧
      ∀ ops : List (IterOp Bytes), ∃ items old' it',
        (Page.SortedPageIter.new old).run ops = some (items, old') ∧
          page.iter.run ops = some (items, it') :=
  ⟨by decide, by decide, by decide, rfl, by decide,
    sortedPage_versions_iter twoEntries (by decide) (by decide) _ (by decide) zeroAlloc _ rfl
      (by decide)⟩

end Versions

end PhotonDb.Engine
