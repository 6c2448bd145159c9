import PicoBLE.Ota.Crc32
import PicoBLE.Storage.Config
import PicoBLE.System.BindingRecord

/-!
# Records with a burst in them

The metadata, the bindings and the configuration all carry their checksum right
behind the bytes it covers, and their readers compare the two. So none of them
takes a record that was sealed and has since changed within 32 bits.
-/

namespace PicoBLE.System

open NorFlash Bytes
open PicoBLE.Ota (Sealed read_sealed)

/-! ## The bindings -/

/-- **Bytes survive their entry.** -/
theorem DiskBind.encode_decode {bs : List UInt8} (h : bs.length = diskBindSize) :
    (DiskBind.decode bs h).encode = bs := by
  have hlen : bs.length = 105 := h
  have hhead : [bs.getD 0 0, bs.getD 1 0, bs.getD 2 0, bs.getD 3 0] = field 0 4 bs := by
    match bs, hlen with
    | a :: b :: c :: d :: rest, _ => rfl
  unfold encode decode
  dsimp only
  rw [hhead, leBytes_ofNat32 (field_length (by omega)), field_append 4 4 97, field_append 0 4 101]
  exact field_last hlen

/-- The checksum covers the bytes as they stand. -/
theorem DiskRecord.covered_decode {bs : List UInt8} (h : bs.length = diskRecordSize) :
    (DiskRecord.decode bs h).covered = bs.take (diskRecordSize - 4) := by
  have hlen : bs.length = 1692 := h
  have hentries : (bindSlots.flatMap fun i => ((DiskRecord.decode bs h).entries i).encode)
      = field 8 (bindSlotCount * diskBindSize) bs := by
    rw [← flatMap_field]
    exact List.flatMap_congr fun i _ => DiskBind.encode_decode (field_length (entry_bound h i))
  rw [covered, hentries]
  unfold decode
  dsimp only
  rw [leBytes_ofNat32 (field_length (by omega)), leBytes_ofNat16 (field_length (by omega)),
    leBytes_ofNat16 (field_length (by omega)), field_append 6 2, field_append 4, field_append 0]
  rfl

/-- `bindings_load` takes sealed records only. -/
theorem storedEntries_sealed {f : Image} {ds : List DiskBind}
    (h : Bindings.storedEntries f = some ds) :
    Sealed bindStorageOffset (diskRecordSize - 4) f := by
  unfold Bindings.storedEntries at h
  dsimp only at h
  split at h
  · exact absurd h (by simp)
  · split at h
    · exact absurd h (by simp)
    · next hcrc => exact read_sealed (not_not.mp hcrc) (DiskRecord.covered_decode _) rfl

end PicoBLE.System

namespace PicoBLE.Storage

open NorFlash Bytes
open PicoBLE.Ota (Sealed Altered read_sealed readMetadata readMetadata_sealed otaMetadataOffset
  metadataSize picoOtaCrc32 picoOtaCrc32_ne)
open PicoBLE.System (Bindings storedEntries_sealed diskRecordSize bindStorageOffset)

/-! ## The configuration -/

theorem ConfigRecord.covered_decode {bs : List UInt8} (h : bs.length = configRecordSize) :
    (ConfigRecord.decode bs h).covered = bs.take (configRecordSize - 4) := by
  have hlen : bs.length = 109 := h
  unfold covered decode
  dsimp only
  rw [leBytes_ofNat32 (field_length (by omega)), leBytes_ofNat16 (field_length (by omega)),
    leBytes_ofNat16 (field_length (by omega)), field_append 8 33 64, field_append 6 2 97,
    field_append 4 2 99, field_append 0 4 101]
  rfl

/-- `config_load_wifi` takes sealed records only. -/
theorem configLoadWifi_sealed {f : Image} {c : WifiCreds} (h : configLoadWifi f = some c) :
    Sealed configSectorOffset (configRecordSize - 4) f := by
  unfold configLoadWifi at h
  dsimp only at h
  split at h
  · exact absurd h (by simp)
  · split at h
    · exact absurd h (by simp)
    · split at h
      · exact absurd h (by simp)
      · next hcrc => exact read_sealed (not_not.mp hcrc) (ConfigRecord.covered_decode _) rfl

/-! ## The three readers -/

/-- **A short burst is noticed.** Strings of one length that differ within 32 consecutive bits have
different checksums, and a sealed record that such a burst has altered is taken by no reader. -/
theorem burst_rejected :
    (∀ xs ys : List UInt8, xs.length = ys.length → xs ≠ ys →
      Crc.Burst 32 (Crc.bits xs) (Crc.bits ys) → picoOtaCrc32 xs ≠ picoOtaCrc32 ys) ∧
    (∀ f g, Sealed otaMetadataOffset (metadataSize - 4) f →
      Altered otaMetadataOffset (metadataSize - 4) f g → readMetadata g = none) ∧
    (∀ f g, Sealed bindStorageOffset (diskRecordSize - 4) f →
      Altered bindStorageOffset (diskRecordSize - 4) f g → ∀ b : Bindings, b.load g = (b, false)) ∧
    (∀ f g, Sealed configSectorOffset (configRecordSize - 4) f →
      Altered configSectorOffset (configRecordSize - 4) f g → configLoadWifi g = none) := by
  refine ⟨fun xs ys hlen hne hburst => picoOtaCrc32_ne hlen hne hburst, fun f g hf ha => ?_,
    fun f g hf ha b => ?_, fun f g hf ha => ?_⟩
  · cases h : readMetadata g with
    | none => rfl
    | some m => exact absurd (readMetadata_sealed h) (hf.altered ha)
  · cases h : Bindings.storedEntries g with
    | none => exact Bindings.load_none h
    | some ds => exact absurd (storedEntries_sealed h) (hf.altered ha)
  · cases h : configLoadWifi g with
    | none => rfl
    | some c => exact absurd (configLoadWifi_sealed h) (hf.altered ha)

/-! ## Two bits in the configuration -/

def shedWifi : WifiCreds :=
  { ssid := zeroPadded 33 (CString.ascii "shed"), psk := zeroPadded 64 (CString.ascii "lamplight") }

def shedFlash : Image :=
  (configSaveWifi (fun _ => true) (some shedWifi) ⟨fun _ => 0xFF, []⟩).1.image

/-- Two bits of the password's first character have changed. -/
def shedAltered : Image := fun a => if a = configSectorOffset + 41 then shedFlash a ^^^ 0x81
    else shedFlash a

theorem shedAltered_altered : Altered configSectorOffset (configRecordSize - 4) shedFlash
    shedAltered := by
  refine ⟨by decide +kernel, by decide +kernel, Crc.burst_of_eq (k := 8 * 41) ?_ ?_⟩
  · decide +kernel
  · decide +kernel

/-- The record was good, and is not taken any more. -/
theorem shedAltered_rejected :
    configLoadWifi shedFlash = some shedWifi ∧ configLoadWifi shedAltered = none := by
  have hload : configLoadWifi shedFlash = some shedWifi := by decide +kernel
  exact ⟨hload, burst_rejected.2.2.2 _ _ (configLoadWifi_sealed hload) shedAltered_altered⟩

end PicoBLE.Storage
