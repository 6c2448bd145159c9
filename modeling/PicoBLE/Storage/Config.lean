import PicoBLE.Lib.CString
import PicoBLE.Ota.Metadata
import PicoBLE.Storage.Sector

/-!
# `storage/config.c`

The Wi-Fi credentials, in the last sector of the flash. The record takes less
than a page, and its last four bytes are the checksum of the others.
-/

namespace PicoBLE.Storage

open NorFlash Bytes
open PicoBLE.Ota (Flash flashPageSize flashSectorSize eraseRange programPage picoOtaCrc32)

/-- `PICO_FLASH_SIZE_BYTES` of the board. -/
def picoFlashSizeBytes : Nat := 2 * 1024 * 1024

/-- Where the configuration is. -/
def configSectorOffset : Nat := picoFlashSizeBytes - flashSectorSize
def configMagic : UInt32 := 0x50434347
def configVersion : UInt16 := 1
def configSsidMaxlen : Nat := 32
def configPskMaxlen : Nat := 63

/-- `wifi_creds_t`: two buffers, each for a string with its NUL. -/
structure WifiCreds where
  ssid : Block 33
  psk : Block 64
deriving DecidableEq

/-- `config_record_t`. -/
structure ConfigRecord where
  magic : UInt32
  version : UInt16
  reserved : UInt16
  ssid : Block 33
  psk : Block 64
  crc32 : UInt32
deriving DecidableEq

/-- `sizeof(config_record_t)`, packed. -/
def configRecordSize : Nat := 109

/-- The bytes the checksum covers. -/
def ConfigRecord.covered (r : ConfigRecord) : List UInt8 :=
  leBytes 4 r.magic.toNat ++ (leBytes 2 r.version.toNat ++ (leBytes 2 r.reserved.toNat ++
    (r.ssid.1 ++ r.psk.1)))

/-- The record's bytes. -/
def ConfigRecord.encode (r : ConfigRecord) : List UInt8 := r.covered ++ leBytes 4 r.crc32.toNat

/-- The record with the given bytes. -/
def ConfigRecord.decode (bs : List UInt8) (h : bs.length = configRecordSize) : ConfigRecord where
  magic := UInt32.ofNat (leNat (field 0 4 bs))
  version := UInt16.ofNat (leNat (field 4 2 bs))
  reserved := UInt16.ofNat (leNat (field 6 2 bs))
  ssid := ⟨field 8 33 bs, field_length (by rw [h]; decide)⟩
  psk := ⟨field 41 64 bs, field_length (by rw [h]; decide)⟩
  crc32 := UInt32.ofNat (leNat (field 105 4 bs))

@[simp] theorem ConfigRecord.covered_length (r : ConfigRecord) : r.covered.length = 105 := by
  simp [covered, r.ssid.2, r.psk.2]

@[simp] theorem ConfigRecord.encode_length (r : ConfigRecord) :
    r.encode.length = configRecordSize := by
  simp [encode, configRecordSize]

/-! ## Reading -/

/-- `config_load_wifi`. -/
def configLoadWifi (f : Image) : Option WifiCreds :=
  let r := ConfigRecord.decode (read configSectorOffset configRecordSize f) (read_length _ _ _)
  if r.magic ≠ configMagic then none
  else if r.version ≠ configVersion then none
  else if picoOtaCrc32 r.covered ≠ r.crc32 then none
  else some
    { ssid := ⟨r.ssid.1.take configSsidMaxlen ++ [0], by
        rw [List.length_append, List.length_take, r.ssid.2]; rfl⟩
      psk := ⟨r.psk.1.take configPskMaxlen ++ [0], by
        rw [List.length_append, List.length_take, r.psk.2]; rfl⟩ }

/-- An erased sector holds no credentials. -/
theorem configLoadWifi_blank {f : Image} (h : Blank configSectorOffset flashSectorSize f) :
    configLoadWifi f = none := by
  have hread : read configSectorOffset configRecordSize f = List.replicate configRecordSize 0xFF :=
    read_blank (h.mono (Nat.le_refl _) (Nat.add_le_add_left (by decide) _))
  unfold configLoadWifi
  simp only [hread]
  rfl

/-- The reader looks at its sector only. -/
theorem configLoadWifi_congr {f g : Image}
    (h : read configSectorOffset flashSectorSize g = read configSectorOffset flashSectorSize f) :
    configLoadWifi g = configLoadWifi f := by
  have hread : read configSectorOffset configRecordSize g
      = read configSectorOffset configRecordSize f := by
    rw [← read_take (show configRecordSize ≤ flashSectorSize by decide), h, read_take (by decide)]
  unfold configLoadWifi
  simp only [hread]

/-! ## Writing -/

/-- A string in a buffer of zeros. -/
def zeroPadded (n : Nat) (s : List UInt8) : Block n :=
  ⟨CString.strncpy n s, CString.strncpy_length n s⟩

/-- The record `config_save_wifi` builds for two strings. -/
def configRecord (ssid psk : List UInt8) : ConfigRecord :=
  let r : ConfigRecord :=
    { magic := configMagic, version := configVersion, reserved := 0, ssid := zeroPadded 33 ssid,
      psk := zeroPadded 64 psk, crc32 := 0 }
  { r with crc32 := picoOtaCrc32 r.covered }

/-- The page `write_record` programs. -/
def ConfigRecord.page (r : ConfigRecord) : List UInt8 :=
  r.encode ++ List.replicate (flashPageSize - configRecordSize) 0xFF

/-- `write_record`. -/
def writeRecord (ok : Nat → Bool) (r : ConfigRecord) (f : Flash) : Flash × Bool :=
  rewriteSector ok configSectorOffset r.page f

/-- The lengths `config_save_wifi` takes. -/
def WifiCreds.Sound (c : WifiCreds) : Prop :=
  let ssidLen := (CString.ofBuffer c.ssid.1).length
  let pskLen := (CString.ofBuffer c.psk.1).length
  (ssidLen ≠ 0 ∧ ssidLen ≤ configSsidMaxlen) ∧ (pskLen ≠ 0 ∧ pskLen ≤ configPskMaxlen)

instance (c : WifiCreds) : Decidable c.Sound := by
  unfold WifiCreds.Sound
  exact inferInstance

/-- `config_save_wifi`. -/
def configSaveWifi (ok : Nat → Bool) (creds : Option WifiCreds) (f : Flash) : Flash × Bool :=
  match creds with
  | none => (f, false)
  | some c =>
    if ¬ c.Sound then (f, false)
    else writeRecord ok (configRecord (CString.ofBuffer c.ssid.1) (CString.ofBuffer c.psk.1)) f

/-- `config_clear_wifi`. -/
def configClearWifi (ok : Bool) (f : Flash) : Flash × Bool :=
  eraseRange ok configSectorOffset flashSectorSize f

end PicoBLE.Storage
