import PhotonDb.Codec.Codec
import PhotonDb.Page.Layout

/-! # The sorted page of `page/sorted_page.rs`

A `SortedPageBuilder` counts the entries of its iterator (`with_iter`), and `build` writes
them into a page content through a `SortedPageBuf`: the offsets encoder covers the first
`4 * num_items` bytes, the payload encoder the rest. A `SortedPageRef` reads the number of
items back from the first offset, and `rank` binary-searches the items by key.

The iterator is modelled by the sequence of entries it yields, the same before and after
`rewind`. The page header written by the `base` builder is not modelled. Where the code
panics (an `unwrap` of `None`, an out-of-range slice, a failed `assert_eq!`) or reads or
writes past a buffer, the model returns `none`; the code's own `Option` results are inner.
-/

namespace PhotonDb.Page

set_option autoImplicit false

variable {K V : Type}

structure SortedPageBuilder (K V : Type) where
  iter : Option (List (K × V))
  size : Nat
  numItems : Nat

structure SortedPageBuf where
  offsets : Encoder
  payload : Encoder

namespace SortedPageBuf

/-- `split_at_mut` panics when the offsets table does not fit the content. -/
def new (content : Bytes) (numItems : Nat) : Option SortedPageBuf :=
  let offsetsSize := numItems * 4
  if offsetsSize ≤ content.length then
    some ⟨Encoder.new (content.take offsetsSize), Encoder.new (content.drop offsetsSize)⟩
  else none

def add [EncodeTo K] [EncodeTo V] (buf : SortedPageBuf) (key : K) (value : V) :
    Option SortedPageBuf := do
  let offset := buf.offsets.len + buf.payload.offset
  let offsets ← buf.offsets.putU32 offset
  let payload ← encodeEntry key value buf.payload
  pure ⟨offsets, payload⟩

/-- `for (k, v) in iter { buf.add(k, v) }`. -/
def addAll [EncodeTo K] [EncodeTo V] (buf : SortedPageBuf) (iter : List (K × V)) :
    Option SortedPageBuf :=
  iter.foldlM (fun buf (k, v) => buf.add k v) buf

def content (buf : SortedPageBuf) : Bytes := buf.offsets.buf ++ buf.payload.buf

end SortedPageBuf

namespace SortedPageBuilder

def new : SortedPageBuilder K V := ⟨none, 0, 0⟩

variable [EncodeTo K] [EncodeTo V]

def withIter (b : SortedPageBuilder K V) (iter : List (K × V)) : SortedPageBuilder K V :=
  let counted := iter.foldl (fun (b : SortedPageBuilder K V) (k, v) =>
    { b with size := b.size + (encodeSize k + encodeSize v), numItems := b.numItems + 1 }) b
  { counted with size := counted.size + counted.numItems * 4, iter := some iter }

/-- `build` into a page whose content is `content`, giving the content afterwards.
`page.size()` is read as the size of the page content. -/
def build (b : SortedPageBuilder K V) (content : Bytes) : Option Bytes :=
  if content.length = b.size then
    match b.iter with
    | some iter => (SortedPageBuf.new content b.numItems >>= (·.addAll iter)).map (·.content)
    | none => some content
  else none

end SortedPageBuilder

structure SortedPageRef (K V : Type) where
  content : Bytes
  offsets : List Nat

namespace SortedPageRef

/-- The first word, the size of the offsets table, gives the number of offsets. Reading it
from a content shorter than a word, or a table longer than the content, fails. -/
def new (content : Bytes) : Option (SortedPageRef K V) := do
  let size ← if content.isEmpty then some 0 else (Decoder.getU32 ⟨content⟩).map (·.1)
  let numOffsets := size / 4
  let (offsets, _) ← Decoder.getU32s numOffsets ⟨content⟩
  pure ⟨content, offsets⟩

def len (page : SortedPageRef K V) : Nat := page.offsets.length

def itemOffset (page : SortedPageRef K V) (index : Nat) : Option Nat := page.offsets[index]?

/-- `&self.content[offset..next_offset]`, which panics unless
`offset ≤ next_offset ≤ content.len()`. -/
def item (page : SortedPageRef K V) (index : Nat) : Option (Option Bytes) :=
  match page.itemOffset index with
  | some offset =>
    let nextOffset := (page.itemOffset (index + 1)).getD page.content.length
    if offset ≤ nextOffset ∧ nextOffset ≤ page.content.length then
      some (some ((page.content.drop offset).take (nextOffset - offset)))
    else none
  | none => some none

def get [DecodeFrom K] [DecodeFrom V] (page : SortedPageRef K V) (index : Nat) :
    Option (Option (K × V)) :=
  page.item index >>= fun
    | some item => (decodeEntry ⟨item⟩).map some
    | none => some none

/-- The binary search of `rank`, on the half-open window `[left, right)`. -/
def rankLoop [DecodeFrom K] [LinearOrder K] (page : SortedPageRef K V) (target : K)
    (left right : Nat) : Option (Except Nat Nat) :=
  if _h : left < right then
    let mid := (left + right) / 2
    page.item mid >>= fun item => item >>= fun item =>
      (decodeFrom ⟨item⟩ : Option (K × Decoder)) >>= fun (key, _) =>
        match compare key target with
        | .lt => page.rankLoop target (mid + 1) right
        | .gt => page.rankLoop target left mid
        | .eq => some (.ok mid)
  else some (.error left)
termination_by right - left

/-- `Ok(i)` on a match, `Err(insertion point)` otherwise. -/
def rank [DecodeFrom K] [LinearOrder K] (page : SortedPageRef K V) (target : K) :
    Option (Except Nat Nat) :=
  page.rankLoop target 0 page.len

end SortedPageRef

structure SortedPageIter (K V : Type) where
  page : SortedPageRef K V
  /-- The `next` field of the code: the index of the entry `next()` returns. -/
  nextIndex : Nat

namespace SortedPageIter

def new (page : SortedPageRef K V) : SortedPageIter K V := ⟨page, 0⟩

variable [DecodeFrom K] [DecodeFrom V]

def next (it : SortedPageIter K V) : Option (Option (K × V) × SortedPageIter K V) :=
  it.page.get it.nextIndex >>= fun
    | some item => some (some item, { it with nextIndex := it.nextIndex + 1 })
    | none => some (none, it)

def seek [LinearOrder K] (it : SortedPageIter K V) (target : K) : Option (SortedPageIter K V) :=
  (it.page.rank target).map fun
    | .ok i => { it with nextIndex := i }
    | .error i => { it with nextIndex := i }

def rewind (it : SortedPageIter K V) : SortedPageIter K V := { it with nextIndex := 0 }

end SortedPageIter

end PhotonDb.Page
