import Mathlib

/-! # Byte buffers, little-endian words, and the page encoder and decoder

The sorted pages write `(key, value)` entries through `codec::Encoder` and read them back
through `codec::Decoder`; neither is part of the sources. They are modelled from the spec
(§4.1): a page content is a byte string, words are little-endian, an encoder fills a fixed
buffer from its start, and a decoder reads from the front of a byte string. A write or a
read past the end of its buffer is undefined in the code; here it fails with `none`.
-/

namespace PhotonDb

set_option autoImplicit false

/-- Raw bytes: `&[u8]` and `Vec<u8>` of the code. -/
abbrev Bytes := List UInt8

instance uint8LinearOrder : LinearOrder UInt8 := LinearOrder.lift' UInt8.toNat fun _ _ h => UInt8.toNat.inj h

namespace Page

/-- The `width` little-endian bytes of `v`. Higher bytes are dropped, which is the
truncation of `v as u32` (width 4). -/
def leBytes : Nat → Nat → Bytes
  | 0, _ => []
  | width + 1, v => UInt8.ofNat (v % 256) :: leBytes width (v / 256)

def leValue : Bytes → Nat
  | [] => 0
  | b :: bs => b.toNat + 256 * leValue bs

@[simp] theorem length_leBytes (width v : Nat) : (leBytes width v).length = width := by
  induction width generalizing v with
  | zero => rfl
  | succ width ih => simp [leBytes, ih]

theorem leValue_leBytes (width v : Nat) : leValue (leBytes width v) = v % 256 ^ width := by
  induction width generalizing v with
  | zero => simp [leBytes, leValue, Nat.mod_one]
  | succ width ih =>
    have hByte : (UInt8.ofNat (v % 256)).toNat = v % 256 :=
      UInt8.toNat_ofNat_of_lt (Nat.mod_lt _ (by decide))
    rw [leBytes, leValue, hByte, ih, Nat.pow_succ', Nat.mod_mul]

/-- `bytes` written over `buf` from position `pos`, or `none` when they do not fit. -/
def overwrite (buf : Bytes) (pos : Nat) (bytes : Bytes) : Option Bytes :=
  if pos + bytes.length ≤ buf.length then
    some (buf.take pos ++ bytes ++ buf.drop (pos + bytes.length))
  else none

theorem overwrite_written (done rest bytes : Bytes) (h : bytes.length ≤ rest.length) :
    overwrite (done ++ rest) done.length bytes = some (done ++ bytes ++ rest.drop bytes.length) := by
  simp [overwrite, h, List.drop_append_eq_append_drop]

/-- Modelled from the spec: `codec::Encoder`, a cursor writing into a fixed buffer.
`len` is the length of the buffer and `offset` the number of bytes written. -/
structure Encoder where
  buf : Bytes
  offset : Nat
  deriving DecidableEq, Repr

namespace Encoder

def new (buf : Bytes) : Encoder := ⟨buf, 0⟩

def len (enc : Encoder) : Nat := enc.buf.length

def putSlice (enc : Encoder) (bytes : Bytes) : Option Encoder :=
  (overwrite enc.buf enc.offset bytes).map fun buf => ⟨buf, enc.offset + bytes.length⟩

def putU8 (enc : Encoder) (v : UInt8) : Option Encoder := enc.putSlice [v]

/-- `put_u32`; callers pass `x as u32`, whose truncation `leBytes` performs. -/
def putU32 (enc : Encoder) (v : Nat) : Option Encoder := enc.putSlice (leBytes 4 v)

def putU64 (enc : Encoder) (v : UInt64) : Option Encoder := enc.putSlice (leBytes 8 v.toNat)

/-- `BufWriter::skip` of the engine: advance without writing. -/
def skip (enc : Encoder) (n : Nat) : Option Encoder :=
  if enc.offset + n ≤ enc.len then some ⟨enc.buf, enc.offset + n⟩ else none

def written (done rest : Bytes) : Encoder := ⟨done ++ rest, done.length⟩

@[simp] theorem new_eq (buf : Bytes) : new buf = written [] buf := rfl

@[simp] theorem len_written (done rest : Bytes) :
    (written done rest).len = done.length + rest.length := by
  simp [written, len]

@[simp] theorem offset_written (done rest : Bytes) : (written done rest).offset = done.length :=
  rfl

@[simp] theorem buf_written (done rest : Bytes) : (written done rest).buf = done ++ rest := rfl

theorem putSlice_written (done rest bytes : Bytes) (h : bytes.length ≤ rest.length) :
    (written done rest).putSlice bytes = some (written (done ++ bytes) (rest.drop bytes.length)) := by
  simp [putSlice, written, overwrite_written done rest bytes h, List.append_assoc]

theorem putSlice_written_of_lt (done rest bytes : Bytes) (h : rest.length < bytes.length) :
    (written done rest).putSlice bytes = none := by
  simp [putSlice, written, overwrite]
  omega

theorem skip_written (done rest : Bytes) (n : Nat) (h : n ≤ rest.length) :
    (written done rest).skip n = some (written (done ++ rest.take n) (rest.drop n)) := by
  simp [skip, written, len, h, Nat.min_eq_left h]

theorem putSlice_append (enc : Encoder) (a b : Bytes) :
    enc.putSlice (a ++ b) = enc.putSlice a >>= fun enc => enc.putSlice b := by
  obtain ⟨buf, offset⟩ := enc
  by_cases hFit : offset + a.length ≤ buf.length
  · have hTake : (List.take offset buf).length = offset := by simp; omega
    have hFits : offset + (a.length + b.length) ≤ buf.length ↔
        b.length ≤ buf.length - (offset + a.length) := by omega
    simp [putSlice, overwrite, hFit, hTake, hFits, List.take_append_eq_append_take,
      List.drop_append_eq_append_drop, Nat.add_assoc, List.take_take,
      List.drop_eq_nil_of_le]
  · simp [putSlice, overwrite, hFit]
    omega

end Encoder

/-- Modelled from the spec: `codec::Decoder`, a cursor reading from the front of `rest`. -/
structure Decoder where
  rest : Bytes
  deriving DecidableEq, Repr

namespace Decoder

def remaining (dec : Decoder) : Nat := dec.rest.length

def getSlice (dec : Decoder) (n : Nat) : Option (Bytes × Decoder) :=
  if n ≤ dec.rest.length then some (dec.rest.take n, ⟨dec.rest.drop n⟩) else none

def getU8 (dec : Decoder) : Option (UInt8 × Decoder) :=
  match dec.rest with
  | b :: rest => some (b, ⟨rest⟩)
  | [] => none

def getU32 (dec : Decoder) : Option (Nat × Decoder) :=
  (dec.getSlice 4).map fun (bytes, dec) => (leValue bytes, dec)

def getU64 (dec : Decoder) : Option (UInt64 × Decoder) :=
  (dec.getSlice 8).map fun (bytes, dec) => (UInt64.ofNat (leValue bytes), dec)

/-- `n` successive `u32` words, as a `&[u32]` view of the front of a page content. -/
def getU32s : Nat → Decoder → Option (List Nat × Decoder)
  | 0, dec => some ([], dec)
  | n + 1, dec => dec.getU32 >>= fun (w, dec) =>
    (getU32s n dec).map fun (ws, dec) => (w :: ws, dec)

@[simp] theorem getSlice_append (bytes rest : Bytes) :
    (⟨bytes ++ rest⟩ : Decoder).getSlice bytes.length = some (bytes, ⟨rest⟩) := by
  simp [getSlice]

@[simp] theorem getU8_cons (b : UInt8) (rest : Bytes) :
    (⟨b :: rest⟩ : Decoder).getU8 = some (b, ⟨rest⟩) := rfl

theorem getU32_leBytes (v : Nat) (rest : Bytes) (h : v < 2 ^ 32) :
    (⟨leBytes 4 v ++ rest⟩ : Decoder).getU32 = some (v, ⟨rest⟩) := by
  have hSlice := getSlice_append (leBytes 4 v) rest
  rw [length_leBytes] at hSlice
  have hMod : v % 256 ^ 4 = v := Nat.mod_eq_of_lt (lt_of_lt_of_eq h rfl)
  rw [getU32, hSlice]
  simp only [Option.map_some', leValue_leBytes, hMod]

@[simp] theorem getU64_leBytes (v : UInt64) (rest : Bytes) :
    (⟨leBytes 8 v.toNat ++ rest⟩ : Decoder).getU64 = some (v, ⟨rest⟩) := by
  have hSlice := getSlice_append (leBytes 8 v.toNat) rest
  rw [length_leBytes] at hSlice
  have hLt : v.toNat < 256 ^ 8 := v.toNat_lt_size
  have hOfNat : UInt64.ofNat v.toNat = v := UInt64.toNat.inj (UInt64.toNat_ofNat_of_lt hLt)
  simp only [getU64, hSlice, Option.map_some', leValue_leBytes, Nat.mod_eq_of_lt hLt, hOfNat]

theorem getU32s_flatMap (words : List Nat) (rest : Bytes) (h : ∀ w ∈ words, w < 2 ^ 32) :
    (⟨words.flatMap (leBytes 4) ++ rest⟩ : Decoder).getU32s words.length =
      some (words, ⟨rest⟩) := by
  induction words with
  | nil => rfl
  | cons w words ih =>
    have hWords : ∀ w ∈ words, w < 2 ^ 32 := fun w hw => h w (List.mem_cons_of_mem _ hw)
    simp [getU32s, List.append_assoc, getU32_leBytes w _ (h w (List.mem_cons_self _ _)),
      ih hWords]

end Decoder

end Page

end PhotonDb
