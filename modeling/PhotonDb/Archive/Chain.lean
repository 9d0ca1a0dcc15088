import PhotonDb.Archive.Index

/-! # Chains of page frames

A logical page of the archive tree is a chain of frames, newest on top. Each frame's header
holds the address `next` of the frame below it (0 below the base), the length `len` of the
chain from it down to the base, and the page's `epoch`. `Page::link` puts a new frame on top of
`next` with a copy of `next`'s header, one longer and pointing at `next`, and
`link_with_new_epoch` also moves the epoch on. `Drop for Page` walks the frames below a
dropped frame, unlinking each, and stops at the first removed one.

Frames live in a memory from addresses to frames, where the null address 0 holds none. We show
that every run of links keeps a chain whose lengths count its frames and whose epochs do not
decrease towards the top, and that dropping a frame unlinks exactly the frames below it down
to the first removed one.
-/

namespace PhotonDb.Archive

set_option autoImplicit false

structure PageHeader where
  len : Nat
  next : Nat
  epoch : UInt64

namespace PageHeader

def new : PageHeader := ⟨1, 0, 0⟩

def withEpoch (epoch : UInt64) : PageHeader := ⟨1, 0, epoch⟩

/-- The header a frame linked to `next` gets; the `PageRef` to `next` is read as its header
and its address. -/
def withNext (next : PageHeader) (address : Nat) : PageHeader :=
  { next with len := next.len + 1, next := address }

def withNextEpoch (next : PageHeader) (address : Nat) : PageHeader :=
  let header := withNext next address
  { header with epoch := header.epoch + 1 }

@[simp] theorem withNext_len (next : PageHeader) (address : Nat) :
    (withNext next address).len = next.len + 1 := rfl

@[simp] theorem withNext_next (next : PageHeader) (address : Nat) :
    (withNext next address).next = address := rfl

@[simp] theorem withNext_epoch (next : PageHeader) (address : Nat) :
    (withNext next address).epoch = next.epoch := rfl

@[simp] theorem withNextEpoch_len (next : PageHeader) (address : Nat) :
    (withNextEpoch next address).len = next.len + 1 := rfl

@[simp] theorem withNextEpoch_next (next : PageHeader) (address : Nat) :
    (withNextEpoch next address).next = address := rfl

@[simp] theorem withNextEpoch_epoch (next : PageHeader) (address : Nat) :
    (withNextEpoch next address).epoch = next.epoch + 1 := rfl

end PageHeader

structure MergeNode where
  lowest : Bytes
  highest : Bytes
  rightPage : Nat

inductive PageContent where
  | baseData (data : BaseData)
  | deltaData (data : DeltaData)
  | splitData (node : SplitNode)
  | mergeData (node : MergeNode)
  | removeData
  | baseIndex (index : BaseIndex)
  | deltaIndex (index : DeltaIndex)
  | splitIndex (node : SplitNode)
  | mergeIndex (node : MergeNode)
  | removeIndex

namespace PageContent

def isData : PageContent → Bool
  | baseData _ | deltaData _ | splitData _ | mergeData _ | removeData => true
  | _ => false

def isRemoved : PageContent → Bool
  | removeData | removeIndex => true
  | _ => false

end PageContent

structure Page where
  header : PageHeader
  content : PageContent

namespace Page

/-- `Page::link`, with the `PageRef` to `next` read as the frame and its address. -/
def link (self : Page) (next : Page) (address : Nat) : Page :=
  { self with header := PageHeader.withNext next.header address }

def unlink (self : Page) : Page := { self with header := { self.header with next := 0 } }

/-- Modelled from the spec: `link_with_new_epoch` links as `link` does, with the header
`PageHeader::with_next_epoch` builds. -/
def linkWithNewEpoch (self : Page) (next : Page) (address : Nat) : Page :=
  { self with header := PageHeader.withNextEpoch next.header address }

end Page

/-- Modelled from the spec: `PageBuf::from_usize` takes the frame at an address, and the null
address holds none. -/
def fromUsize (mem : Nat → Option Page) (address : Nat) : Option Page :=
  if address = 0 then none else mem address

/-- The loop of `Drop for Page` from the address `next`, given `fuel` turns. A frame it takes
that is removed ends the loop; any other has its `next` cleared, and the loop goes on from
the frame's old `next`. It returns the memory after the loop and the addresses of the frames
it took, each released as its `PageBuf` goes out of scope, and none when the fuel runs out. -/
def dropLoop (mem : Nat → Option Page) : Nat → Nat → Option ((Nat → Option Page) × List Nat)
  | 0, _ => none
  | fuel + 1, next =>
    match fromUsize mem next with
    | none => some (mem, [])
    | some page =>
      if page.content.isRemoved then some (mem, [next])
      else (dropLoop (Function.update mem next (some page.unlink)) fuel page.header.next).map
        fun r => (r.1, next :: r.2)

def Page.drop (self : Page) (mem : Nat → Option Page) (fuel : Nat) :
    Option ((Nat → Option Page) × List Nat) :=
  dropLoop mem fuel self.header.next

def unlinkAll (mem : Nat → Option Page) (frames : List (Nat × Page)) : Nat → Option Page :=
  frames.foldl (fun m f => Function.update m f.1 (some f.2.unlink)) mem

/-- `frames`, topmost first, are the frames of `mem` reached from the address `next` down to
the null address, each at its own address. -/
def Chain (mem : Nat → Option Page) : Nat → List (Nat × Page) → Prop
  | next, [] => next = 0
  | next, f :: rest =>
    next = f.1 ∧ next ≠ 0 ∧ mem next = some f.2 ∧ f.1 ∉ rest.map Prod.fst ∧
      Chain mem f.2.header.next rest

/-- The headers of `frames`, topmost first, count and order the chain: each frame's `len` is
the number of frames from it down to the base, and epochs do not decrease towards the top. -/
def Counted : List (Nat × Page) → Prop
  | [] => True
  | f :: rest =>
    f.2.header.len = rest.length + 1 ∧
      (∀ g ∈ rest, g.2.header.epoch.toNat ≤ f.2.header.epoch.toNat) ∧ Counted rest

namespace Chain

variable {mem : Nat → Option Page}

theorem mem_some : ∀ {next : Nat} {frames : List (Nat × Page)}, Chain mem next frames →
    ∀ f ∈ frames, mem f.1 = some f.2
  | _, [], _ => by simp
  | _, _ :: _, ⟨rfl, _, hMem, _, hRest⟩ => by
    simpa only [List.forall_mem_cons] using ⟨hMem, mem_some hRest⟩

theorem not_mem_of_free {next a : Nat} {frames : List (Nat × Page)}
    (h : Chain mem next frames) (hFree : mem a = none) : a ∉ frames.map Prod.fst := by
  simp only [List.mem_map, not_exists, not_and]
  intro f hf hEq
  rw [← hEq, h.mem_some f hf] at hFree
  cases hFree

theorem update {a : Nat} (v : Option Page) : ∀ {next : Nat} {frames : List (Nat × Page)},
    a ∉ frames.map Prod.fst → Chain mem next frames → Chain (Function.update mem a v) next frames
  | _, [], _, h => h
  | _, f :: _, ha, ⟨rfl, hNonzero, hMem, hNotIn, hRest⟩ => by
    simp only [List.map_cons, List.mem_cons, not_or] at ha
    exact ⟨rfl, hNonzero, by rw [Function.update_noteq (Ne.symm ha.1), hMem], hNotIn,
      update v ha.2 hRest⟩

end Chain

/-- Modelled from the spec: a writer or a structure modification posts a frame with `content`
at a freshly allocated `address` on top of the chain, through `link_with_new_epoch` when
`newEpoch`. -/
structure LinkOp where
  address : Nat
  content : PageContent
  newEpoch : Bool

def LinkOp.frame (op : LinkOp) (head : Nat × Page) : Page :=
  let page : Page := ⟨PageHeader.new, op.content⟩
  if op.newEpoch then page.linkWithNewEpoch head.2 head.1 else page.link head.2 head.1

def linkAll (mem : Nat → Option Page) : List (Nat × Page) → List LinkOp →
    (Nat → Option Page) × List (Nat × Page)
  | frames, [] => (mem, frames)
  | [], _ :: _ => (mem, [])
  | head :: frames, op :: ops =>
    let page := op.frame head
    linkAll (Function.update mem op.address (some page)) ((op.address, page) :: head :: frames)
      ops

namespace LinkOp

variable (op : LinkOp) (head : Nat × Page)

@[simp] theorem frame_len : (op.frame head).header.len = head.2.header.len + 1 := by
  unfold frame; split <;> rfl

@[simp] theorem frame_next : (op.frame head).header.next = head.1 := by
  unfold frame; split <;> rfl

theorem frame_epoch
    (h : head.2.header.epoch.toNat + (if op.newEpoch then 1 else 0) < 2 ^ 64) :
    (op.frame head).header.epoch.toNat =
      head.2.header.epoch.toNat + if op.newEpoch then 1 else 0 := by
  unfold frame
  split
  · rename_i hNew
    rw [if_pos hNew] at h
    show (head.2.header.epoch + 1).toNat = _
    rw [UInt64.toNat_add, show (1 : UInt64).toNat = 1 from rfl]
    exact Nat.mod_eq_of_lt h
  · rfl

theorem length_filter_newEpoch_cons (ops : List LinkOp) :
    ((op :: ops).filter LinkOp.newEpoch).length =
      (if op.newEpoch then 1 else 0) + (ops.filter LinkOp.newEpoch).length := by
  cases h : op.newEpoch <;> simp [List.filter_cons, h, Nat.add_comm]

end LinkOp

theorem Chain.link {mem : Nat → Option Page} {head : Nat × Page} {frames : List (Nat × Page)}
    (op : LinkOp) (h : Chain mem head.1 (head :: frames)) (hAddress : op.address ≠ 0)
    (hFree : mem op.address = none) :
    Chain (Function.update mem op.address (some (op.frame head))) op.address
      ((op.address, op.frame head) :: head :: frames) := by
  have hNotIn := h.not_mem_of_free hFree
  exact ⟨rfl, hAddress, Function.update_same _ _ _, hNotIn,
    by simpa only [LinkOp.frame_next] using h.update _ hNotIn⟩

theorem Counted.link {head : Nat × Page} {frames : List (Nat × Page)} (op : LinkOp)
    (h : Counted (head :: frames))
    (hEpoch : head.2.header.epoch.toNat + (if op.newEpoch then 1 else 0) < 2 ^ 64) :
    Counted ((op.address, op.frame head) :: head :: frames) := by
  obtain ⟨hLen, hOrder, hRest⟩ := h
  have hTop := op.frame_epoch head hEpoch
  refine ⟨by simp [hLen], ?_, hLen, hOrder, hRest⟩
  simp only [List.forall_mem_cons]
  exact ⟨by omega, fun g hg => by have := hOrder g hg; omega⟩

/-- Every run of links at fresh, distinct, non-null addresses on a chain of `mem` whose
headers count and order it, with no epoch past `2 ^ 64 - 1`: the result is a chain of the
memory after, on top of the old one, whose headers count and order it, its top's epoch moved
on once per link with a new epoch, and the memory changed only at the new frames. -/
theorem linkAll_chain (mem : Nat → Option Page) (head : Nat × Page) (frames : List (Nat × Page))
    (hChain : Chain mem head.1 (head :: frames)) (hCounted : Counted (head :: frames))
    (ops : List LinkOp) (hFresh : ∀ op ∈ ops, op.address ≠ 0 ∧ mem op.address = none)
    (hDistinct : (ops.map LinkOp.address).Nodup)
    (hEpoch : head.2.header.epoch.toNat + (ops.filter LinkOp.newEpoch).length < 2 ^ 64) :
    ∃ top below, (linkAll mem (head :: frames) ops).2 = top :: below ∧
      Chain (linkAll mem (head :: frames) ops).1 top.1 (top :: below) ∧ Counted (top :: below) ∧
      below.length = ops.length + frames.length ∧
      (top :: below).drop ops.length = head :: frames ∧
      top.2.header.epoch.toNat = head.2.header.epoch.toNat + (ops.filter LinkOp.newEpoch).length ∧
      ∀ a ∉ ops.map LinkOp.address, (linkAll mem (head :: frames) ops).1 a = mem a := by
  induction ops generalizing mem head frames with
  | nil => exact ⟨head, frames, rfl, hChain, hCounted, (Nat.zero_add _).symm, rfl, rfl, fun _ _ => rfl⟩
  | cons op ops ih =>
    simp only [List.map_cons, List.nodup_cons, List.mem_map, not_exists, not_and] at hDistinct
    rw [LinkOp.length_filter_newEpoch_cons] at hEpoch ⊢
    have hStep : head.2.header.epoch.toNat + (if op.newEpoch then 1 else 0) < 2 ^ 64 := by omega
    have hTop := op.frame_epoch head hStep
    have hFresh' : ∀ o ∈ ops, o.address ≠ 0 ∧
        Function.update mem op.address (some (op.frame head)) o.address = none := fun o ho =>
      ⟨(hFresh o (List.mem_cons_of_mem _ ho)).1, by
        rw [Function.update_noteq (fun hEq => hDistinct.1 o ho hEq)]
        exact (hFresh o (List.mem_cons_of_mem _ ho)).2⟩
    obtain ⟨top, below, hRun, hChain', hCounted', hLen, hDrop, hTopEpoch, hFrame⟩ :=
      ih _ (op.address, op.frame head) (head :: frames)
        (hChain.link op (hFresh op (List.mem_cons_self _ _)).1
          (hFresh op (List.mem_cons_self _ _)).2)
        (hCounted.link op hStep) hFresh' hDistinct.2 (by dsimp only; omega)
    dsimp only at hTopEpoch
    refine ⟨top, below, hRun, hChain', hCounted', by simp [hLen]; omega, ?_, by omega, ?_⟩
    · rw [List.length_cons, ← List.drop_drop, hDrop]; rfl
    · intro a ha
      simp only [List.map_cons, List.mem_cons, not_or] at ha
      rw [linkAll, hFrame a ha.2, Function.update_noteq ha.1]

def baseFrame : Page := ⟨PageHeader.withEpoch 3, .baseData twoRecordPage⟩

def baseMemory (a : Nat) : Option Page := if a = 1 then some baseFrame else none

def removeThenDelta : List LinkOp :=
  [⟨2, .removeData, true⟩, ⟨3, .deltaData DeltaData.new, false⟩]

theorem linkAll_chain_removeThenDelta :
    Chain baseMemory 1 [(1, baseFrame)] ∧ Counted [(1, baseFrame)] ∧
      (∀ op ∈ removeThenDelta, op.address ≠ 0 ∧ baseMemory op.address = none) ∧
      (removeThenDelta.map LinkOp.address).Nodup ∧
      baseFrame.header.epoch.toNat + (removeThenDelta.filter LinkOp.newEpoch).length < 2 ^ 64 ∧
      ∃ top below, (linkAll baseMemory [(1, baseFrame)] removeThenDelta).2 = top :: below ∧
        Chain (linkAll baseMemory [(1, baseFrame)] removeThenDelta).1 top.1 (top :: below) ∧
        Counted (top :: below) ∧ below.length = removeThenDelta.length + 0 ∧
        (top :: below).drop removeThenDelta.length = [(1, baseFrame)] ∧
        top.2.header.epoch.toNat =
          baseFrame.header.epoch.toNat + (removeThenDelta.filter LinkOp.newEpoch).length ∧
        ∀ a ∉ removeThenDelta.map LinkOp.address,
          (linkAll baseMemory [(1, baseFrame)] removeThenDelta).1 a = baseMemory a := by
  have hChain : Chain baseMemory 1 [(1, baseFrame)] := ⟨rfl, by decide, rfl, by simp, rfl⟩
  have hCounted : Counted [(1, baseFrame)] := ⟨rfl, by simp, trivial⟩
  have hFresh : ∀ op ∈ removeThenDelta, op.address ≠ 0 ∧ baseMemory op.address = none := by
    simp [removeThenDelta, baseMemory]
  exact ⟨hChain, hCounted, hFresh, by decide, by decide,
    linkAll_chain baseMemory (1, baseFrame) [] hChain hCounted removeThenDelta hFresh
      (by decide) (by decide)⟩

theorem dropLoop_chain : ∀ {mem : Nat → Option Page} {next fuel : Nat}
    {frames : List (Nat × Page)}, Chain mem next frames → frames.length < fuel →
    dropLoop mem fuel next =
      some (unlinkAll mem (frames.takeWhile fun f => !f.2.content.isRemoved),
        (frames.take ((frames.takeWhile fun f => !f.2.content.isRemoved).length + 1)).map
          Prod.fst)
  | _, _, 0, _, _, hFuel => absurd hFuel (Nat.not_lt_zero _)
  | mem, _, _ + 1, [], rfl, _ => by simp [dropLoop, fromUsize, unlinkAll]
  | mem, _, fuel + 1, (a, p) :: rest, ⟨rfl, hNonzero, hMem, hNotIn, hRest⟩, hFuel => by
    have hTake : fromUsize mem a = some p := by rw [fromUsize, if_neg hNonzero, hMem]
    by_cases hRemoved : p.content.isRemoved
    · simp [dropLoop, hTake, hRemoved, unlinkAll]
    · have ih := dropLoop_chain (hRest.update (some p.unlink) hNotIn)
        (Nat.lt_of_succ_lt_succ hFuel)
      simp [dropLoop, hTake, hRemoved, ih, unlinkAll]

/-- Dropping a frame whose `next` reaches a chain of `mem`, with more turns than the chain has
frames: the loop takes the frames of the chain down to its first removed frame, unlinks those
above it and changes nothing else. An unlinked frame drops nothing. -/
theorem drop_unlinks (mem : Nat → Option Page) (self : Page) (frames : List (Nat × Page))
    (hChain : Chain mem self.header.next frames) (fuel : Nat) (hFuel : frames.length < fuel) :
    self.drop mem fuel =
        some (unlinkAll mem (frames.takeWhile fun f => !f.2.content.isRemoved),
          (frames.take ((frames.takeWhile fun f => !f.2.content.isRemoved).length + 1)).map
            Prod.fst) ∧
      self.unlink.drop mem fuel = some (mem, []) := by
  refine ⟨dropLoop_chain hChain hFuel, ?_⟩
  obtain ⟨fuel, rfl⟩ := Nat.exists_eq_add_of_lt hFuel
  simp [Page.drop, Page.unlink, dropLoop, fromUsize]

def removeFrame : Page := ⟨⟨2, 1, 4⟩, .removeData⟩

def deltaFrame : Page := ⟨⟨3, 2, 4⟩, .deltaData DeltaData.new⟩

def droppedFrame : Page := ⟨⟨4, 3, 4⟩, .deltaData DeltaData.new⟩

def chainMemory (a : Nat) : Option Page :=
  if a = 3 then some deltaFrame else if a = 2 then some removeFrame else baseMemory a

theorem drop_unlinks_removeThenDelta :
    Chain chainMemory droppedFrame.header.next
        [(3, deltaFrame), (2, removeFrame), (1, baseFrame)] ∧ 3 < 4 ∧
      droppedFrame.drop chainMemory 4 = some (unlinkAll chainMemory [(3, deltaFrame)], [3, 2]) ∧
      droppedFrame.unlink.drop chainMemory 4 = some (chainMemory, []) := by
  have hChain : Chain chainMemory droppedFrame.header.next
      [(3, deltaFrame), (2, removeFrame), (1, baseFrame)] :=
    ⟨rfl, by decide, rfl, by decide, rfl, by decide, rfl, by decide, rfl, by decide, rfl, by simp,
      rfl⟩
  exact ⟨hChain, by decide,
    drop_unlinks chainMemory droppedFrame [(3, deltaFrame), (2, removeFrame), (1, baseFrame)]
      hChain 4 (by decide)⟩

end PhotonDb.Archive
