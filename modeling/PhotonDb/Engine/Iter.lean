import PhotonDb.Engine.Seek

/-! # Runs of the engine page iterator

A client drives a `SortedPageIter` by a sequence of calls of `next`, `seek(target)` and
`rewind`; `run` replays such a sequence and collects what each `next` returned. On a page
whose keys strictly increase, the iterator behaves as a cursor over the entries: `next`
returns the first entry still to come, `seek` keeps the entries from the target on,
`rewind` all of them, and `last()` is what the latest `next` returned since the latest
`seek` or `rewind`. The simulation is proved one call at a time (`Simulates.next`,
`Simulates.seek`, `Simulates.rewind`) and then over whole runs (`Simulates.run`).
-/

namespace PhotonDb

set_option autoImplicit false

/-- One call of a client on a seekable, rewindable iterator. -/
inductive IterOp (K : Type) where
  | next
  | seek (target : K)
  | rewind

end PhotonDb

namespace PhotonDb.Engine

open PhotonDb.Page (PrefixCodec Valid encodedItems DecodeFrom)

set_option autoImplicit false

variable {K V : Type}

theorem dropWhile_eq_drop {α : Type} (p : α → Bool) (l : List α) (r : Nat)
    (hBefore : ∀ j (h : j < l.length), j < r → p l[j] = true)
    (hAt : ∀ h : r < l.length, p l[r] = false) : l.dropWhile p = l.drop r := by
  induction l generalizing r with
  | nil => simp
  | cons a l ih =>
    cases r with
    | zero =>
      have hA : p a = false := hAt (by simp)
      simp [List.dropWhile_cons, hA]
    | succ r =>
      have hA : p a = true := hBefore 0 (by simp) (by omega)
      rw [List.dropWhile_cons_of_pos hA, List.drop_succ_cons]
      exact ih r (fun j hj hjr => hBefore (j + 1) (by simpa using hj) (by omega))
        (fun h => hAt (by simpa using h))

namespace SortedPageIter

def run [DecodeFrom K] [DecodeFrom V] [LinearOrder K] :
    SortedPageIter K V → List (IterOp K) → Option (List (Option (K × V)) × SortedPageIter K V)
  | it, [] => some ([], it)
  | it, .next :: ops => it.next >>= fun r => (run r.2 ops).map fun s => (r.1 :: s.1, s.2)
  | it, .seek target :: ops => it.seek target >>= fun it => run it ops
  | it, .rewind :: ops => run it.rewind ops

end SortedPageIter

/-- An iterator over `entries` as a client sees it: the entries still to come, and what the
latest `next` returned. -/
structure Cursor (K V : Type) where
  rest : List (K × V)
  last : Option (K × V)

namespace Cursor

def start (entries : List (K × V)) : Cursor K V := ⟨entries, none⟩

def run [LinearOrder K] (entries : List (K × V)) (c : Cursor K V) :
    List (IterOp K) → List (Option (K × V)) × Cursor K V
  | [] => ([], c)
  | .next :: ops =>
    let r := run entries ⟨c.rest.tail, c.rest.head?⟩ ops
    (c.rest.head? :: r.1, r.2)
  | .seek target :: ops => run entries ⟨entries.dropWhile fun e => decide (e.1 < target), none⟩ ops
  | .rewind :: ops => run entries (start entries) ops

end Cursor

section Simulation

variable [PrefixCodec K] [PrefixCodec V] {E : List (K × V)}

structure Simulates (E : List (K × V)) (it : SortedPageIter K V) (c : Cursor K V) : Prop where
  page : it.page = SortedPageRef.ofItems (encodedItems E)
  le_length : it.nextIndex ≤ E.length
  rest : c.rest = E.drop it.nextIndex
  last : it.last = c.last

theorem Simulates.next (hValid : ∀ e ∈ E, Valid e.1 ∧ Valid e.2) {it : SortedPageIter K V}
    {c : Cursor K V} (h : Simulates E it c) :
    ∃ it', it.next = some (c.rest.head?, it') ∧ Simulates E it' ⟨c.rest.tail, c.rest.head?⟩ := by
  obtain ⟨page, i, last⟩ := it
  obtain ⟨hPage, hLe, hRest, -⟩ := h
  dsimp only at hPage hLe hRest
  subst hPage
  rw [hRest]
  rcases Nat.lt_or_ge i E.length with hi | hi
  · rw [List.drop_eq_getElem_cons hi]
    refine ⟨⟨SortedPageRef.ofItems (encodedItems E), i + 1, some E[i]⟩, ?_, rfl, hi, rfl, rfl⟩
    simp [SortedPageIter.next, SortedPageRef.get_ofItems E hValid i hi]
  · rw [List.drop_eq_nil_of_le hi]
    refine ⟨⟨SortedPageRef.ofItems (encodedItems E), i, none⟩, ?_, rfl, hLe,
      (List.drop_eq_nil_of_le hi).symm, rfl⟩
    simp [SortedPageIter.next, SortedPageRef.get_ofItems_of_le E i hi]

theorem Simulates.seek [LinearOrder K] (hValid : ∀ e ∈ E, Valid e.1 ∧ Valid e.2)
    (hStrict : (E.map Prod.fst).Sorted (· < ·)) {it : SortedPageIter K V} {c : Cursor K V}
    (h : Simulates E it c) (target : K) :
    ∃ it', it.seek target = some it' ∧
      Simulates E it' ⟨E.dropWhile fun e => decide (e.1 < target), none⟩ := by
  obtain ⟨r, hRank, hResult⟩ :=
    SortedPageRef.rank_ofItems E hValid (List.Pairwise.imp le_of_lt hStrict) target
  obtain ⟨hBefore, -, hAt⟩ := rankIndex_of_strict hStrict hResult
  refine ⟨{ it with nextIndex := rankIndex r, last := none },
    by simp [SortedPageIter.seek, h.page, hRank], h.page, rankIndex_le hResult, ?_, rfl⟩
  exact dropWhile_eq_drop _ E (rankIndex r) (fun j hj hjr => by simpa using hBefore j hj hjr)
    (fun hr => by simpa using hAt hr)

theorem Simulates.rewind {it : SortedPageIter K V} {c : Cursor K V} (h : Simulates E it c) :
    Simulates E it.rewind (Cursor.start E) :=
  ⟨h.page, Nat.zero_le _, (List.drop_zero E).symm, rfl⟩

/-- Over every sequence of calls, the iterator returns what the cursor returns and ends
where the cursor ends. -/
theorem Simulates.run [LinearOrder K] (hValid : ∀ e ∈ E, Valid e.1 ∧ Valid e.2)
    (hStrict : (E.map Prod.fst).Sorted (· < ·)) (ops : List (IterOp K)) :
    ∀ {it : SortedPageIter K V} {c : Cursor K V}, Simulates E it c →
      ∃ it', it.run ops = some ((c.run E ops).1, it') ∧ Simulates E it' (c.run E ops).2 := by
  induction ops with
  | nil => exact fun h => ⟨_, rfl, h⟩
  | cons op ops ih =>
    intro it c h
    cases op with
    | next =>
      obtain ⟨it₁, hNext, h₁⟩ := h.next hValid
      obtain ⟨it₂, hRun, h₂⟩ := ih h₁
      exact ⟨it₂, by simp [SortedPageIter.run, Cursor.run, hNext, hRun], h₂⟩
    | seek target =>
      obtain ⟨it₁, hSeek, h₁⟩ := h.seek hValid hStrict target
      obtain ⟨it₂, hRun, h₂⟩ := ih h₁
      exact ⟨it₂, by simp [SortedPageIter.run, Cursor.run, hSeek, hRun], h₂⟩
    | rewind => exact ih h.rewind

end Simulation

/-- On a page built from entries with strictly increasing keys, every sequence of calls on
`iter()` returns what the cursor over the entries returns, and `last()` at the end is the
cursor's. -/
theorem engine_iter_cursor {ε : Type} [PrefixCodec K] [PrefixCodec V] [LinearOrder K]
    (E : List (K × V)) (hValid : ∀ e ∈ E, Valid e.1 ∧ Valid e.2)
    (hStrict : (E.map Prod.fst).Sorted (· < ·))
    (hSize : (SortedPageBuilder.new.addAll E).size < 2 ^ 32)
    (alloc : Nat → Except ε Bytes) (ptr : Bytes)
    (hAlloc : alloc (SortedPageBuilder.new.addAll E).size = .ok ptr)
    (hPtr : ptr.length = (SortedPageBuilder.new.addAll E).size) :
    ∃ (buf : SortedPageBuf) (page : SortedPageRef K V),
      SortedPageBuilder.new.buildFromIter alloc E = some (.ok buf) ∧ buf.asRef = some page ∧
      ∀ ops : List (IterOp K), ∃ it,
        page.iter.run ops = some (((Cursor.start E).run E ops).1, it) ∧
          it.last = ((Cursor.start E).run E ops).2.last := by
  rw [size_addAll_new] at hSize
  refine ⟨_, SortedPageRef.ofItems (encodedItems E), buildFromIter_new E alloc ptr hAlloc hPtr,
    by simpa [SortedPageBuf.asRef] using SortedPageRef.new_layout (K := K) (V := V) _ hSize,
    fun ops => ?_⟩
  obtain ⟨it, hRun, hSim⟩ :=
    Simulates.run hValid hStrict ops (⟨rfl, Nat.zero_le _, rfl, rfl⟩ : Simulates E
      (SortedPageRef.ofItems (encodedItems E)).iter (Cursor.start E))
  exact ⟨it, hRun, hSim.last⟩

def twoEntries : List (Bytes × Bytes) := [([1], [0]), ([2], [1])]

theorem engine_iter_cursor_twoEntries :
    (∀ e ∈ twoEntries, Valid e.1 ∧ Valid e.2) ∧ (twoEntries.map Prod.fst).Sorted (· < ·) ∧
    (SortedPageBuilder.new.addAll twoEntries).size < 2 ^ 32 ∧
    zeroAlloc (SortedPageBuilder.new.addAll twoEntries).size = .ok (List.replicate 28 0) ∧
    (List.replicate 28 0).length = (SortedPageBuilder.new.addAll twoEntries).size ∧
    ∃ (buf : SortedPageBuf) (page : SortedPageRef Bytes Bytes),
      SortedPageBuilder.new.buildFromIter zeroAlloc twoEntries = some (.ok buf) ∧
      buf.asRef = some page ∧
      ∀ ops : List (IterOp Bytes), ∃ it,
        page.iter.run ops = some (((Cursor.start twoEntries).run twoEntries ops).1, it) ∧
          it.last = ((Cursor.start twoEntries).run twoEntries ops).2.last :=
  ⟨by decide, by decide, by decide, rfl, by decide,
    engine_iter_cursor twoEntries (by decide) (by decide) (by decide) zeroAlloc _ rfl (by decide)⟩

end PhotonDb.Engine
