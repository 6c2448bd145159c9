import PicoBLE.Lib.Bytes
import PicoBLE.Ota.Flash
import PicoBLE.Ota.Sha256

/-!
# `metadata.h` and `crc32.c`: the record both programs share

The bootloader and the application agree on one 88-byte record in a sector of
its own. This file has the flash layout, the record with its packed encoding,
the checksum over it, and `read_metadata`, which both programs define alike.
-/

namespace PicoBLE.Ota

open NorFlash Bytes
open PicoBLE.Sha256 (Digest zeroDigest)

/-! ## Flash layout -/

def otaBootloaderOffset : Nat := 0
def otaBootloaderSize : Nat := 16 * 1024
def otaSlotAOffset : Nat := otaBootloaderOffset + otaBootloaderSize
def otaSlotSize : Nat := 768 * 1024
def otaSlotBOffset : Nat := otaSlotAOffset + otaSlotSize
def otaMetadataOffset : Nat := otaSlotBOffset + otaSlotSize

/-- One of the two application slots. -/
inductive Slot where
  | a
  | b
deriving DecidableEq, Repr

/-- Where a slot starts. -/
def Slot.offset : Slot → Nat
  | .a => otaSlotAOffset
  | .b => otaSlotBOffset

/-- `slot ^ 1u`. -/
def Slot.other : Slot → Slot
  | .a => .b
  | .b => .a

/-- The slot's number in a record. -/
def Slot.byte : Slot → UInt8
  | .a => 0
  | .b => 1

/-- The slot a record's `active_slot` selects: 0 is A, anything else is B. -/
def Slot.ofByte (n : UInt8) : Slot := if n = 0 then .a else .b

@[simp] theorem Slot.other_other (s : Slot) : s.other.other = s := by cases s <;> rfl
@[simp] theorem Slot.other_ne (s : Slot) : s.other ≠ s := by cases s <;> decide
@[simp] theorem Slot.ofByte_byte (s : Slot) : Slot.ofByte s.byte = s := by cases s <;> rfl
@[simp] theorem Slot.byte_xor_one (s : Slot) : s.byte ^^^ 1 = s.other.byte := by cases s <;> rfl

theorem Slot.byte_inj {s t : Slot} : s.byte = t.byte ↔ s = t := by
  cases s <;> cases t <;> decide

theorem Slot.eq_or_other (s t : Slot) : t = s ∨ t = s.other := by
  cases s <;> cases t <;> decide

/-- A value for each slot, as the record's two-element arrays. -/
structure PerSlot (α : Type) where
  a : α
  b : α
deriving DecidableEq, Repr

def PerSlot.get {α : Type} (p : PerSlot α) : Slot → α
  | .a => p.a
  | .b => p.b

def PerSlot.set {α : Type} (p : PerSlot α) : Slot → α → PerSlot α
  | .a, x => { p with a := x }
  | .b, x => { p with b := x }

@[simp] theorem PerSlot.get_set_self {α : Type} (p : PerSlot α) (s : Slot) (x : α) :
    (p.set s x).get s = x := by cases s <;> rfl

@[simp] theorem PerSlot.get_set_other {α : Type} (p : PerSlot α) (s : Slot) (x : α) :
    (p.set s x).get s.other = p.get s.other := by cases s <;> rfl

/-! ## The record -/

def otaMetaMagic : UInt32 := 0x4F544131
def otaMetaVersion : UInt16 := 1
/-- Boots a slot on probation gets before it is rolled back. -/
def otaMaxBootAttempts : UInt8 := 3

/-- `ota_metadata_t`. -/
structure OtaMetadata where
  magic : UInt32
  version : UInt16
  /-- 0 = slot A, 1 = slot B. -/
  activeSlot : UInt8
  /-- 1 while the active slot is on probation. -/
  pendingVerify : UInt8
  /-- Bumped by the bootloader each boot. -/
  bootAttempts : UInt8
  reserved : UInt8 × UInt8 × UInt8
  /-- 0 = slot has no valid image. -/
  imageSize : PerSlot UInt32
  imageSha256 : PerSlot Digest
  crc32 : UInt32
deriving DecidableEq

/-- `sizeof(ota_metadata_t)`, packed. -/
def metadataSize : Nat := 88

/-- The record's bytes. -/
def OtaMetadata.encode (m : OtaMetadata) : List UInt8 :=
  leBytes 4 m.magic.toNat ++ (leBytes 2 m.version.toNat ++
    ([m.activeSlot, m.pendingVerify, m.bootAttempts] ++
    ([m.reserved.1, m.reserved.2.1, m.reserved.2.2] ++
    (leBytes 4 m.imageSize.a.toNat ++ (leBytes 4 m.imageSize.b.toNat ++
    (m.imageSha256.a.1 ++ (m.imageSha256.b.1 ++ leBytes 4 m.crc32.toNat)))))))

/-- The record with the given bytes. -/
def OtaMetadata.decode (bs : List UInt8) (h : bs.length = metadataSize) : OtaMetadata where
  magic := UInt32.ofNat (leNat (field 0 4 bs))
  version := UInt16.ofNat (leNat (field 4 2 bs))
  activeSlot := (field 6 3 bs).getD 0 0
  pendingVerify := (field 6 3 bs).getD 1 0
  bootAttempts := (field 6 3 bs).getD 2 0
  reserved := ((field 9 3 bs).getD 0 0, (field 9 3 bs).getD 1 0, (field 9 3 bs).getD 2 0)
  imageSize := ⟨UInt32.ofNat (leNat (field 12 4 bs)), UInt32.ofNat (leNat (field 16 4 bs))⟩
  imageSha256 := ⟨⟨field 20 32 bs, field_length (by rw [h]; decide)⟩,
    ⟨field 52 32 bs, field_length (by rw [h]; decide)⟩⟩
  crc32 := UInt32.ofNat (leNat (field 84 4 bs))

@[simp] theorem OtaMetadata.encode_length (m : OtaMetadata) : m.encode.length = metadataSize := by
  simp [encode, m.imageSha256.a.2, m.imageSha256.b.2, metadataSize]

/-! Where each field of the encoding is found. -/

section Fields

variable (m : OtaMetadata)

private theorem encode_magic : field 0 4 m.encode = leBytes 4 m.magic.toNat :=
  field_here (by simp)

private theorem encode_version : field 4 2 m.encode = leBytes 2 m.version.toNat := by
  rw [OtaMetadata.encode, field_skip (k := 4) (by simp) (by omega)]
  exact field_here (by simp)

private theorem encode_after_version {off n : Nat} (h : 6 ≤ off) :
    field off n m.encode = field (off - 6) n
      ([m.activeSlot, m.pendingVerify, m.bootAttempts] ++
      ([m.reserved.1, m.reserved.2.1, m.reserved.2.2] ++
      (leBytes 4 m.imageSize.a.toNat ++ (leBytes 4 m.imageSize.b.toNat ++
      (m.imageSha256.a.1 ++ (m.imageSha256.b.1 ++ leBytes 4 m.crc32.toNat)))))) := by
  rw [OtaMetadata.encode, field_skip (k := 4) (by simp) (by omega),
    field_skip (k := 2) (by simp) (by omega)]
  congr 1

private theorem encode_flags :
    field 6 3 m.encode = [m.activeSlot, m.pendingVerify, m.bootAttempts] := by
  rw [encode_after_version m (by omega)]
  exact field_here (by simp)

private theorem encode_reserved :
    field 9 3 m.encode = [m.reserved.1, m.reserved.2.1, m.reserved.2.2] := by
  rw [encode_after_version m (by omega), field_skip (k := 3) (by simp) (by omega)]
  exact field_here (by simp)

private theorem encode_after_reserved {off n : Nat} (h : 12 ≤ off) :
    field off n m.encode = field (off - 12) n
      (leBytes 4 m.imageSize.a.toNat ++ (leBytes 4 m.imageSize.b.toNat ++
      (m.imageSha256.a.1 ++ (m.imageSha256.b.1 ++ leBytes 4 m.crc32.toNat)))) := by
  rw [encode_after_version m (by omega), field_skip (k := 3) (by simp) (by omega),
    field_skip (k := 3) (by simp) (by omega)]
  congr 1

private theorem encode_sizeA : field 12 4 m.encode = leBytes 4 m.imageSize.a.toNat := by
  rw [encode_after_reserved m (by omega)]
  exact field_here (by simp)

private theorem encode_sizeB : field 16 4 m.encode = leBytes 4 m.imageSize.b.toNat := by
  rw [encode_after_reserved m (by omega), field_skip (k := 4) (by simp) (by omega)]
  exact field_here (by simp)

private theorem encode_shaA : field 20 32 m.encode = m.imageSha256.a.1 := by
  rw [encode_after_reserved m (by omega), field_skip (k := 4) (by simp) (by omega),
    field_skip (k := 4) (by simp) (by omega)]
  exact field_here m.imageSha256.a.2

private theorem encode_shaB : field 52 32 m.encode = m.imageSha256.b.1 := by
  rw [encode_after_reserved m (by omega), field_skip (k := 4) (by simp) (by omega),
    field_skip (k := 4) (by simp) (by omega), field_skip m.imageSha256.a.2 (by omega)]
  exact field_here m.imageSha256.b.2

private theorem encode_crc : field 84 4 m.encode = leBytes 4 m.crc32.toNat := by
  rw [encode_after_reserved m (by omega), field_skip (k := 4) (by simp) (by omega),
    field_skip (k := 4) (by simp) (by omega), field_skip m.imageSha256.a.2 (by omega),
    field_skip m.imageSha256.b.2 (by omega)]
  exact field_last (by simp)

end Fields

/-- **A record survives its bytes.** -/
theorem OtaMetadata.decode_encode (m : OtaMetadata) (h : m.encode.length = metadataSize) :
    OtaMetadata.decode m.encode h = m := by
  simp only [decode, encode_magic, encode_version, encode_flags, encode_reserved, encode_sizeA,
    encode_sizeB, encode_shaA, encode_shaB, encode_crc, ofNat_leBytes32, ofNat_leBytes16]
  rfl

/-! ## The checksum -/

/-- One of the eight steps for a byte. -/
def crcBit (crc : UInt32) : UInt32 :=
  let mask := 0 - (crc &&& 1)
  (crc >>> 1) ^^^ (0xEDB88320 &&& mask)

/-- One byte. -/
def crcByte (crc : UInt32) (byte : UInt8) : UInt32 := crcBit^[8] (crc ^^^ byte.toUInt32)

/-- `pico_ota_crc32`. -/
def picoOtaCrc32 (data : List UInt8) : UInt32 := ~~~ data.foldl crcByte 0xFFFFFFFF

/-- The bytes the checksum covers: `sizeof(*m) - sizeof(uint32_t)` of them. -/
def OtaMetadata.covered (m : OtaMetadata) : List UInt8 := m.encode.take (metadataSize - 4)

/-- The record with its checksum filled in, as `write_metadata` does it. -/
def OtaMetadata.seal (m : OtaMetadata) : OtaMetadata :=
  let m := { m with crc32 := 0 }
  { m with crc32 := picoOtaCrc32 m.covered }

/-- The 256-byte page image: the record, then `0xFF`. -/
def OtaMetadata.page (m : OtaMetadata) : List UInt8 :=
  m.encode ++ List.replicate (flashPageSize - metadataSize) 0xFF

theorem OtaMetadata.page_length (m : OtaMetadata) : m.page.length = flashPageSize := by
  rw [page, List.length_append, encode_length, List.length_replicate]
  rfl

/-! ## Reading it back -/

/-- `read_metadata`, on the record's bytes. The checksum field of the copy is
cleared for the check, and stays so in the record handed out. -/
def OtaMetadata.parse (bs : List UInt8) (h : bs.length = metadataSize) : Option OtaMetadata :=
  let out := OtaMetadata.decode bs h
  if out.magic ≠ otaMetaMagic then none
  else if out.version ≠ otaMetaVersion then none
  else
    let expected := out.crc32
    let out := { out with crc32 := 0 }
    if picoOtaCrc32 out.covered = expected then some out else none

/-- `read_metadata`. -/
def readMetadata (f : Image) : Option OtaMetadata :=
  OtaMetadata.parse (read otaMetadataOffset metadataSize f) (read_length _ _ _)

/-! ## What the reader makes of a sector -/

/-- A sealed record is accepted, and comes back without its checksum. -/
theorem OtaMetadata.parse_seal {m : OtaMetadata} (hm : m.magic = otaMetaMagic)
    (hv : m.version = otaMetaVersion) (h : m.seal.encode.length = metadataSize) :
    OtaMetadata.parse m.seal.encode h = some { m with crc32 := 0 } := by
  have hm' : m.seal.magic = otaMetaMagic := hm
  have hv' : m.seal.version = otaMetaVersion := hv
  unfold parse
  rw [decode_encode]
  dsimp only
  rw [if_neg (not_not.mpr hm'), if_neg (not_not.mpr hv')]
  exact if_pos rfl

/-- **What was programmed on a blank sector is what is read.** -/
theorem readMetadata_program {f : Image} {m : OtaMetadata} (hm : m.magic = otaMetaMagic)
    (hv : m.version = otaMetaVersion) (hb : Blank otaMetadataOffset flashPageSize f) :
    readMetadata (NorFlash.program otaMetadataOffset m.seal.page f)
      = some { m with crc32 := 0 } := by
  have hlen := m.seal.page_length
  have hr : read otaMetadataOffset metadataSize (NorFlash.program otaMetadataOffset m.seal.page f)
      = m.seal.encode := by
    have hle : metadataSize ≤ flashPageSize := by decide
    rw [← read_take hle, ← hlen, read_program_blank (by rwa [hlen]), OtaMetadata.page,
      List.take_left' (OtaMetadata.encode_length _)]
  unfold readMetadata
  simp only [hr]
  exact OtaMetadata.parse_seal hm hv _

/-- **An erased sector holds no record.** -/
theorem readMetadata_blank {f : Image} (hb : Blank otaMetadataOffset metadataSize f) :
    readMetadata f = none := by
  unfold readMetadata OtaMetadata.parse
  simp only [read_blank hb]
  rfl

/-- The reader looks at the record's bytes and nothing else. -/
theorem readMetadata_congr {f g : Image}
    (h : ∀ i, i < metadataSize → f (otaMetadataOffset + i) = g (otaMetadataOffset + i)) :
    readMetadata f = readMetadata g := by
  unfold readMetadata
  simp only [read_congr h]

theorem OtaMetadata.clear_crc32 {m : OtaMetadata} (h : m.crc32 = 0) :
    { m with crc32 := 0 } = m := by
  cases m; cases h; rfl

/-- What the reader returns was written by one of the two programs. -/
theorem readMetadata_magic {f : Image} {m : OtaMetadata} (h : readMetadata f = some m) :
    m.magic = otaMetaMagic ∧ m.version = otaMetaVersion ∧ m.crc32 = 0 := by
  unfold readMetadata OtaMetadata.parse at h
  dsimp only at h
  split at h
  · exact absurd h (by simp)
  · rename_i hm
    split at h
    · exact absurd h (by simp)
    · rename_i hv
      split at h
      · obtain rfl := Option.some.inj h
        exact ⟨not_not.mp hm, not_not.mp hv, rfl⟩
      · exact absurd h (by simp)

end PicoBLE.Ota
