import PhotonDb.Page.Layout
import PhotonDb.Codec.Codec

/-! # The sorted page of the engine

`engine/src/tree/page/sorted_page.rs` builds a sorted page in two passes over a rewindable
iterator: the first sums the sizes (`SortedPageBuilder::add`), the page is allocated, and
the second writes each entry at the writer's position after the offsets table, storing
that position in the table through a raw pointer. The reader takes the number of entries
from the first offset and decodes an entry from its offset to wherever the decoders stop.

`Encodable` and `Decodable` over `BufWriter` and `BufReader` (not under src/) have the shape
of the codec traits of `page`, and are modelled by the same classes over the same encoder
and decoder. The allocator is a parameter that returns the content of a fresh page. Words
are little-endian, as `to_le` on the writing side makes them on the platforms the raw
`read` of the first offset assumes. As in `page`, `none` marks a panic or an access past the
page content, and the code's own `Option` and `Result` values are inner.
-/

namespace PhotonDb.Engine

open PhotonDb.Page (Encoder Decoder EncodeTo DecodeFrom encodeSize decodeFrom encodeEntry
  decodeEntry overwrite leBytes)

set_option autoImplicit false

variable {K V : Type}

structure SortedPageBuilder where
  offsetsSize : Nat
  payloadSize : Nat

structure SortedPageBuf where
  /-- The `BufWriter` over the whole content; `offsets` points at its first byte. -/
  content : Encoder
  current : Nat

namespace SortedPageBuilder

def new : SortedPageBuilder := ⟨0, 0⟩

def add [EncodeTo K] [EncodeTo V] (b : SortedPageBuilder) (key : K) (value : V) :
    SortedPageBuilder :=
  { b with offsetsSize := b.offsetsSize + 4,
           payloadSize := b.payloadSize + (encodeSize key + encodeSize value) }

def size (b : SortedPageBuilder) : Nat := b.offsetsSize + b.payloadSize

/-- The sizing pass of `build_from_iter`. -/
def addAll [EncodeTo K] [EncodeTo V] (b : SortedPageBuilder) (iter : List (K × V)) :
    SortedPageBuilder :=
  iter.foldl (fun b (k, v) => b.add k v) b

end SortedPageBuilder

namespace SortedPageBuf

def new (ptr : Bytes) (builder : SortedPageBuilder) : Option SortedPageBuf :=
  ((Encoder.new ptr).skip builder.offsetsSize).map fun content => ⟨content, 0⟩

/-- Store `content.pos() as u32` at `offsets[current]`, then encode the entry. -/
def add [EncodeTo K] [EncodeTo V] (buf : SortedPageBuf) (key : K) (value : V) :
    Option SortedPageBuf := do
  let offset := buf.content.offset
  let withOffset ← overwrite buf.content.buf (4 * buf.current) (leBytes 4 offset)
  let content ← encodeEntry key value ⟨withOffset, buf.content.offset⟩
  pure ⟨content, buf.current + 1⟩

def addAll [EncodeTo K] [EncodeTo V] (buf : SortedPageBuf) (iter : List (K × V)) :
    Option SortedPageBuf :=
  iter.foldlM (fun buf (k, v) => buf.add k v) buf

end SortedPageBuf

namespace SortedPageBuilder

variable [EncodeTo K] [EncodeTo V]

/-- `build_from_iter` with an iterator that yields `iter` after each `rewind`; an allocation
error is returned as it is. -/
def buildFromIter {ε : Type} (b : SortedPageBuilder) (alloc : Nat → Except ε Bytes)
    (iter : List (K × V)) : Option (Except ε SortedPageBuf) :=
  let b := b.addAll iter
  match alloc b.size with
  | .error e => some (.error e)
  | .ok ptr => (SortedPageBuf.new ptr b >>= (·.addAll iter)).map .ok

end SortedPageBuilder

/-- `build`: an empty page of the builder's size. -/
def SortedPageBuilder.build {ε : Type} (b : SortedPageBuilder) (alloc : Nat → Except ε Bytes) :
    Option (Except ε SortedPageBuf) :=
  match alloc b.size with
  | .error e => some (.error e)
  | .ok ptr => (SortedPageBuf.new ptr b).map .ok

structure SortedPageRef (K V : Type) where
  /-- The `content_size()` bytes of the page content. -/
  content : Bytes
  offsets : List Nat

namespace SortedPageRef

/-- The first word, the size of the offsets table, gives the number of offsets. -/
def new (content : Bytes) : Option (SortedPageRef K V) := do
  let offsetsLen ← if content.length = 0 then some 0
    else (Decoder.getU32 ⟨content⟩).map (·.1 / 4)
  let (offsets, _) ← Decoder.getU32s offsetsLen ⟨content⟩
  pure ⟨content, offsets⟩

def len (page : SortedPageRef K V) : Nat := page.offsets.length

/-- `content_at(offset)`: a reader from `offset` to the end of the content. -/
def contentAt (page : SortedPageRef K V) (offset : Nat) : Option Decoder :=
  if offset ≤ page.content.length then some ⟨page.content.drop offset⟩ else none

def get [DecodeFrom K] [DecodeFrom V] (page : SortedPageRef K V) (index : Nat) :
    Option (Option (K × V)) :=
  match page.offsets[index]? with
  | some offset => page.contentAt offset >>= fun dec => (decodeEntry dec).map some
  | none => some none

/-- The binary search of `rank` on the window `[left, right)`; `self.offsets[mid]` panics
out of range. -/
def rankLoop [DecodeFrom K] [LinearOrder K] (page : SortedPageRef K V) (target : K)
    (left right : Nat) : Option Nat :=
  if _h : left < right then
    let mid := (left + right) / 2
    page.offsets[mid]? >>= fun offset => page.contentAt offset >>= fun dec =>
      (decodeFrom dec : Option (K × Decoder)) >>= fun (key, _) =>
        match compare target key with
        | .gt => page.rankLoop target (mid + 1) right
        | .lt => page.rankLoop target left mid
        | .eq => some mid
  else some left
termination_by right - left

def rank [DecodeFrom K] [LinearOrder K] (page : SortedPageRef K V) (target : K) : Option Nat :=
  page.rankLoop target 0 page.len

variable [DecodeFrom K] [DecodeFrom V] [LinearOrder K]

def seek (page : SortedPageRef K V) (target : K) : Option (Option (K × V)) :=
  page.rank target >>= page.get

/-- The loop `for i in (0..=index).rev()` of `seek_back`, over the indices left to visit. -/
def seekBackAt (page : SortedPageRef K V) (target : K) : List Nat → Option (Option (K × V))
  | [] => some none
  | i :: is => page.get i >>= fun
    | some (key, value) => if key ≤ target then some (some (key, value))
      else page.seekBackAt target is
    | none => page.seekBackAt target is

def seekBack (page : SortedPageRef K V) (target : K) : Option (Option (K × V)) :=
  page.rank target >>= fun index => page.seekBackAt target (List.range (index + 1)).reverse

end SortedPageRef

structure SortedPageIter (K V : Type) where
  page : SortedPageRef K V
  /-- The `next` field of the code. -/
  nextIndex : Nat
  last : Option (K × V)

namespace SortedPageIter

def new (page : SortedPageRef K V) : SortedPageIter K V := ⟨page, 0, none⟩

variable [DecodeFrom K] [DecodeFrom V]

def next (it : SortedPageIter K V) : Option (Option (K × V) × SortedPageIter K V) :=
  it.page.get it.nextIndex >>= fun last =>
    let it := { it with last, nextIndex := if last.isSome then it.nextIndex + 1 else it.nextIndex }
    some (last, it)

def seek [LinearOrder K] (it : SortedPageIter K V) (target : K) : Option (SortedPageIter K V) :=
  (it.page.rank target).map fun i => { it with nextIndex := i, last := none }

def rewind (it : SortedPageIter K V) : SortedPageIter K V := { it with nextIndex := 0, last := none }

end SortedPageIter

def SortedPageRef.iter (page : SortedPageRef K V) : SortedPageIter K V := SortedPageIter.new page

def SortedPageBuf.asRef (buf : SortedPageBuf) : Option (SortedPageRef K V) :=
  SortedPageRef.new buf.content.buf

end PhotonDb.Engine
