import PhotonDb.Codec.Buffer

/-! # The codecs of the sorted page

`EncodeTo` and `DecodeFrom` are the traits of `page::codec`; their implementations for
`&[u8]`, `Key`, `Value` and `Index` are the ones in `page/sorted_page.rs`. `Codec` and
`PrefixCodec` say what a round trip needs of a codec: `encode_to` writes one byte string of
`encode_size` bytes, and `decode_from` reads it back either from exactly those bytes
(`Codec`) or from the front of any longer string (`PrefixCodec`). `Value` is only a `Codec`:
it decodes a put value as everything that remains.
-/

namespace PhotonDb.Page

set_option autoImplicit false

class EncodeTo (α : Type) where
  encodeSize : α → Nat
  encodeTo : α → Encoder → Option Encoder

class DecodeFrom (α : Type) where
  decodeFrom : Decoder → Option (α × Decoder)

export EncodeTo (encodeSize encodeTo)
export DecodeFrom (decodeFrom)

/-- A codec whose encoding of every value is a fixed byte string, read back exactly when
the value is `Valid` (for slices: shorter than `2 ^ 32`, the range of their `u32` length). -/
class Codec (α : Type) extends EncodeTo α, DecodeFrom α where
  Valid : α → Prop
  [decValid : DecidablePred Valid]
  bytes : α → Bytes
  encodeTo_eq : ∀ a enc, encodeTo a enc = enc.putSlice (bytes a)
  length_bytes : ∀ a, (bytes a).length = encodeSize a
  decodeFrom_bytes : ∀ a, Valid a → decodeFrom ⟨bytes a⟩ = some (a, ⟨[]⟩)

/-- A codec that reads its value back from the front of any byte string. -/
class PrefixCodec (α : Type) extends Codec α where
  decodeFrom_bytes_append :
    ∀ a rest, Valid a → decodeFrom ⟨bytes a ++ rest⟩ = some (a, ⟨rest⟩)
  decodeFrom_bytes := fun a h => by simpa using decodeFrom_bytes_append a [] h

export Codec (Valid bytes encodeTo_eq length_bytes decodeFrom_bytes)
export PrefixCodec (decodeFrom_bytes_append)

attribute [instance] Codec.decValid

section Entry

variable {K V : Type}

/-- `key.encode_to(enc); value.encode_to(enc)`. -/
def encodeEntry [EncodeTo K] [EncodeTo V] (key : K) (value : V) (enc : Encoder) :
    Option Encoder :=
  encodeTo key enc >>= encodeTo value

/-- `K::decode_from(&mut dec)`, then `V::decode_from(&mut dec)`; what is left is ignored. -/
def decodeEntry [DecodeFrom K] [DecodeFrom V] (dec : Decoder) : Option (K × V) :=
  decodeFrom dec >>= fun (key, dec) => (decodeFrom dec).map fun (value, _) => (key, value)

def entryBytes [Codec K] [Codec V] (e : K × V) : Bytes := bytes e.1 ++ bytes e.2

theorem decodeEntry_entryBytes [PrefixCodec K] [Codec V] (e : K × V)
    (h : Valid e.1 ∧ Valid e.2) : decodeEntry ⟨entryBytes e⟩ = some e := by
  simp [decodeEntry, entryBytes, decodeFrom_bytes_append _ _ h.1, decodeFrom_bytes _ h.2]

theorem decodeEntry_entryBytes_append [PrefixCodec K] [PrefixCodec V] (e : K × V)
    (rest : Bytes) (h : Valid e.1 ∧ Valid e.2) : decodeEntry ⟨entryBytes e ++ rest⟩ = some e := by
  simp [decodeEntry, entryBytes, List.append_assoc, decodeFrom_bytes_append _ _ h.1,
    decodeFrom_bytes_append _ _ h.2]

variable [Codec K] [Codec V]

theorem encodeEntry_eq (key : K) (value : V) (enc : Encoder) :
    encodeEntry key value enc = enc.putSlice (entryBytes (key, value)) := by
  simp [encodeEntry, entryBytes, encodeTo_eq, Encoder.putSlice_append]

@[simp] theorem length_entryBytes (e : K × V) :
    (entryBytes e).length = encodeSize e.1 + encodeSize e.2 := by
  simp [entryBytes, length_bytes]

end Entry

instance bytesCodec : PrefixCodec Bytes where
  encodeSize b := 4 + b.length
  encodeTo b enc := enc.putU32 b.length >>= fun enc => enc.putSlice b
  decodeFrom dec := dec.getU32 >>= fun (len, dec) => dec.getSlice len
  Valid b := b.length < 2 ^ 32
  bytes b := leBytes 4 b.length ++ b
  encodeTo_eq b enc := by simp [Encoder.putU32, Encoder.putSlice_append]
  length_bytes b := by simp
  decodeFrom_bytes_append b rest h := by
    simp [List.append_assoc, Decoder.getU32_leBytes _ _ h]

structure Key where
  raw : Bytes
  lsn : UInt64
  deriving DecidableEq, Repr

instance keyCodec : PrefixCodec Key where
  encodeSize k := encodeSize k.raw + 8
  encodeTo k enc := encodeTo k.raw enc >>= fun enc => enc.putU64 k.lsn
  decodeFrom dec := decodeFrom dec >>= fun ((raw : Bytes), dec) =>
    dec.getU64.map fun (lsn, dec) => (⟨raw, lsn⟩, dec)
  Valid k := Valid k.raw
  bytes k := bytes k.raw ++ leBytes 8 k.lsn.toNat
  encodeTo_eq k enc := by simp [encodeTo_eq, Encoder.putU64, Encoder.putSlice_append]
  length_bytes k := by simp [length_bytes]
  decodeFrom_bytes_append k rest h := by
    simp [List.append_assoc, decodeFrom_bytes_append k.raw _ h]

/-- `page::data::Value`: a put of a value, or a tombstone. -/
inductive Value where
  | put (value : Bytes)
  | delete
  deriving DecidableEq, Repr

def VALUE_KIND_PUT : UInt8 := 0

def VALUE_KIND_DELETE : UInt8 := 1

/-- A put value has no length prefix: it is decoded as the rest of the item. -/
instance valueCodec : Codec Value where
  encodeSize
    | .put v => 1 + v.length
    | .delete => 1 + 0
  encodeTo
    | .put v, enc => enc.putU8 VALUE_KIND_PUT >>= fun enc => enc.putSlice v
    | .delete, enc => enc.putU8 VALUE_KIND_DELETE
  decodeFrom dec := dec.getU8 >>= fun (kind, dec) =>
    if kind = VALUE_KIND_PUT then
      (dec.getSlice dec.remaining).map fun (v, dec) => (.put v, dec)
    else if kind = VALUE_KIND_DELETE then some (.delete, dec)
    else none
  Valid _ := True
  bytes
    | .put v => VALUE_KIND_PUT :: v
    | .delete => [VALUE_KIND_DELETE]
  encodeTo_eq v enc := by
    cases v <;> simp [Encoder.putU8, ← Encoder.putSlice_append]
  length_bytes v := by cases v <;> simp [Nat.add_comm]
  decodeFrom_bytes v _ := by
    cases v <;> simp [Decoder.getSlice, Decoder.remaining, VALUE_KIND_PUT, VALUE_KIND_DELETE]

structure Index where
  id : UInt64
  epoch : UInt64
  deriving DecidableEq, Repr

instance indexCodec : PrefixCodec Index where
  encodeSize _ := 8 * 2
  encodeTo i enc := enc.putU64 i.id >>= fun enc => enc.putU64 i.epoch
  decodeFrom dec := dec.getU64 >>= fun (id, dec) =>
    dec.getU64.map fun (epoch, dec) => (⟨id, epoch⟩, dec)
  Valid _ := True
  bytes i := leBytes 8 i.id.toNat ++ leBytes 8 i.epoch.toNat
  encodeTo_eq i enc := by simp [Encoder.putU64, Encoder.putSlice_append]
  length_bytes i := by simp
  decodeFrom_bytes_append i rest _ := by simp [List.append_assoc]

instance uint64LinearOrder : LinearOrder UInt64 := LinearOrder.lift' UInt64.toNat fun _ _ h => UInt64.toNat.inj h

/-- Modelled from the spec (§3), as the `Ord` of `Key` is not under src/: keys order by
their raw bytes ascending, then by LSN descending, so newer versions come first. -/
def Key.sortKey (k : Key) : Lex (Bytes × OrderDual UInt64) := toLex (k.raw, OrderDual.toDual k.lsn)

instance keyLinearOrder : LinearOrder Key :=
  LinearOrder.lift' Key.sortKey fun a b h => by
    cases a; cases b
    simpa [Key.sortKey] using h

end PhotonDb.Page
