import PicoBLE.Lib.Crc
import PicoBLE.Ota.Metadata

/-!
# What `pico_ota_crc32` detects

The routine adds a byte to the bottom of its word and moves the word down eight
places. That is the register of a 32-bit check, which takes the byte's bits one
by one, least significant first. So no two strings of one length that differ
within 32 consecutive bits have the same checksum, and a record in which such
bits have changed does not have its own.
-/

namespace PicoBLE.Ota

open NorFlash Bytes

/-! ## The word is a register -/

/-- `0xEDB88320`. -/
def crcPoly : BitVec 32 := 0xEDB88320#32

theorem crcBit_toBitVec (crc : UInt32) :
    (crcBit crc).toBitVec = Crc.shift crcPoly crc.toBitVec := by
  have hlow : (crc &&& 1).toBitVec = (BitVec.ofBool (crc.toBitVec.getLsbD 0)).setWidth 32 := by
    rw [UInt32.toBitVec_and]
    exact BitVec.and_one_eq_setWidth_ofBool_getLsbD
  show (crc.toBitVec >>> 1) ^^^ (crcPoly &&& (0 - (crc &&& 1).toBitVec)) = _
  rw [Crc.shift, hlow]
  -- the mask is all zeros or all ones
  cases crc.toBitVec.getLsbD 0 with
  | false => rfl
  | true => rfl

theorem crcByte_toBitVec (crc : UInt32) (byte : UInt8) :
    (crcByte crc byte).toBitVec = Crc.feedAll crcPoly crc.toBitVec (Crc.byteBits byte) := by
  have hbits : Crc.ofBits 32 (Crc.byteBits byte) = byte.toUInt32.toBitVec := by
    refine BitVec.eq_of_getLsbD_eq fun i hi => ?_
    rw [Crc.getLsbD_ofBits, Crc.byteBits_getD, decide_eq_true hi, Bool.true_and]
    rfl
  have hiter : ∀ n (c : UInt32), (crcBit^[n] c).toBitVec = (Crc.shift crcPoly)^[n] c.toBitVec := by
    intro n c
    exact (Function.Semiconj.iterate_right (f := UInt32.toBitVec) crcBit_toBitVec n) c
  rw [Crc.feedAll_ofBits (by rw [Crc.byteBits_length]; decide), hbits, Crc.byteBits_length, crcByte,
    hiter, UInt32.toBitVec_xor]

theorem foldl_crcByte (data : List UInt8) (crc : UInt32) :
    (data.foldl crcByte crc).toBitVec = Crc.feedAll crcPoly crc.toBitVec (Crc.bits data) := by
  induction data generalizing crc with
  | nil => rfl
  | cons byte data ih =>
    rw [List.foldl_cons, ih, crcByte_toBitVec]
    exact (List.foldl_append ..).symm

/-- **A short burst changes the checksum.** -/
theorem picoOtaCrc32_ne {xs ys : List UInt8} (hlen : xs.length = ys.length) (hne : xs ≠ ys)
    (hburst : Crc.Burst 32 (Crc.bits xs) (Crc.bits ys)) : picoOtaCrc32 xs ≠ picoOtaCrc32 ys := by
  intro h
  have hwords := congrArg UInt32.toBitVec (UInt32.not_inj.mp h)
  rw [foldl_crcByte, foldl_crcByte] at hwords
  refine Crc.feedAll_ne (by decide) ?_ (fun hbits => hne (Crc.bits_injective hbits)) hburst hwords
  rw [Crc.bits_length, Crc.bits_length, hlen]

/-! ## Records with their checksum behind them -/

/-- The four bytes behind the `n` at `off` are their checksum. -/
def Sealed (off n : Nat) (f : Image) : Prop :=
  picoOtaCrc32 (read off n f) = UInt32.ofNat (leNat (read (off + n) 4 f))

/-- Between `f` and `g`, some of the `n` bytes at `off` have changed, all within 32 bits. The
checksum has not. -/
structure Altered (off n : Nat) (f g : Image) : Prop where
  sum : read (off + n) 4 g = read (off + n) 4 f
  changed : read off n f ≠ read off n g
  burst : Crc.Burst 32 (Crc.bits (read off n f)) (Crc.bits (read off n g))

theorem Sealed.altered {off n : Nat} {f g : Image} (h : Sealed off n f) (ha : Altered off n f g) :
    ¬ Sealed off n g := by
  intro hg
  have hlen : (read off n f).length = (read off n g).length := by rw [read_length, read_length]
  refine picoOtaCrc32_ne hlen ha.changed ha.burst ?_
  rw [h, hg, ha.sum]

/-- The bytes that a record was read from. -/
theorem read_sealed {off n : Nat} {f : Image} {covered : List UInt8} {crc32 : UInt32}
    (h : picoOtaCrc32 covered = crc32) (hcovered : covered = (read off (n + 4) f).take n)
    (hcrc : crc32 = UInt32.ofNat (leNat (field n 4 (read off (n + 4) f)))) : Sealed off n f := by
  have hlen : (read off n f).length = n := read_length _ _ _
  rw [read_append, List.take_left' hlen] at hcovered
  rw [read_append, field_skip hlen (Nat.le_refl n), Nat.sub_self,
    field_last (read_length _ _ _)] at hcrc
  rw [Sealed, ← hcovered, h, hcrc]

/-! ## The metadata -/

/-- The checksum covers the bytes as they stand. -/
theorem OtaMetadata.covered_decode {bs : List UInt8} (h : bs.length = metadataSize) :
    OtaMetadata.covered { OtaMetadata.decode bs h with crc32 := 0 } =
      bs.take (metadataSize - 4) := by
  have hlen : bs.length = 88 := h
  have hfield : ∀ off n, off + n ≤ 88 → (field off n bs).length = n := fun off n hle =>
    field_length (by rw [hlen]; exact hle)
  have hthree : ∀ xs : List UInt8, xs.length = 3 →
      [xs.getD 0 0, xs.getD 1 0, xs.getD 2 0] = xs := by
    intro xs hxs
    match xs, hxs with
    | [a, b, c], _ => rfl
  have hall : OtaMetadata.encode { OtaMetadata.decode bs h with crc32 := 0 }
      = field 0 84 bs ++ leBytes 4 0 := by
    unfold encode decode
    dsimp only
    rw [leBytes_ofNat32 (hfield 0 4 (by omega)), leBytes_ofNat16 (hfield 4 2 (by omega)),
      hthree _ (hfield 6 3 (by omega)), hthree _ (hfield 9 3 (by omega)),
      leBytes_ofNat32 (hfield 12 4 (by omega)), leBytes_ofNat32 (hfield 16 4 (by omega))]
    simp only [← List.append_assoc]
    rw [field_append 0 4 2, field_append 0 6 3, field_append 0 9 3, field_append 0 12 4,
      field_append 0 16 4, field_append 0 20 32, field_append 0 52 32]
    rfl
  rw [covered, hall]
  exact List.take_left' (hfield 0 84 (by omega))

/-- `read_metadata` takes sealed records only. -/
theorem readMetadata_sealed {f : Image} {m : OtaMetadata} (h : readMetadata f = some m) :
    Sealed otaMetadataOffset (metadataSize - 4) f := by
  unfold readMetadata OtaMetadata.parse at h
  dsimp only at h
  split at h
  · exact absurd h (by simp)
  · split at h
    · exact absurd h (by simp)
    · split at h
      · next hcrc => exact read_sealed hcrc (OtaMetadata.covered_decode _) rfl
      · exact absurd h (by simp)

end PicoBLE.Ota
