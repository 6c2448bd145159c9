import PicoBLE.Lib.CString
import PicoBLE.Ota.Metadata
import PicoBLE.Storage.Sector

/-!
# `system/bindings.c`: the table and its record

Sixteen bindings of a GPIO edge to a command line, in RAM, and the record that
keeps them over a reset. The record packs the used bindings to the front.
-/

namespace PicoBLE.System

open NorFlash Bytes
open PicoBLE.Ota (Flash flashSectorSize picoOtaCrc32)
open PicoBLE.Storage (Block rewriteSector)

def bindSlotCount : Nat := 16
def bindTargetMax : Nat := 96
def bindStorageOffset : Nat := 0x001FA000
def bindMagic : UInt32 := 0x424E4431
def bindVersion : UInt16 := 1

/-! ## The table -/

/-- `slot_t`. -/
structure BindSlot where
  used : Bool
  pin : UInt8
  edge : UInt8
  debounceMs : UInt32
  target : Block 97
  lastFiredMs : UInt32
  pending : Bool
deriving DecidableEq

/-- `g_slots`. -/
abbrev BindTable := Fin bindSlotCount → BindSlot

/-- The slots in the order of the loops over them. -/
def bindSlots : List (Fin bindSlotCount) := List.finRange bindSlotCount

/-- `find_slot`. -/
def findSlot (pin : Nat) (t : BindTable) : Option (Fin bindSlotCount) :=
  bindSlots.find? fun i => (t i).used && (t i).pin.toNat = pin

/-- `find_free`. -/
def findFreeSlot (t : BindTable) : Option (Fin bindSlotCount) :=
  bindSlots.find? fun i => !(t i).used

/-- A string in a buffer of `n + 1` bytes, as `strncpy` and the NUL after it leave it. -/
def targetBuffer (target : List UInt8) : Block 97 :=
  ⟨CString.strncpy bindTargetMax target ++ [0], by
    rw [List.length_append, CString.strncpy_length]; rfl⟩

/-- `bindings_add`: the new table, or `none` for false. -/
def bindingsAdd (pin : Nat) (edge : UInt8) (target : List UInt8) (debounceMs : UInt32)
    (t : BindTable) : Option BindTable :=
  if pin > 29 ∨ target.length > bindTargetMax then none
  else
    match (findSlot pin t).orElse fun _ => findFreeSlot t with
    | none => none
    | some slot => some fun i =>
      if i = slot then
        { used := true, pin := UInt8.ofNat pin, edge := edge, debounceMs := debounceMs,
          target := targetBuffer target, lastFiredMs := 0, pending := false }
      else t i

/-! ## The record -/

/-- `disk_bind_t`. -/
structure DiskBind where
  used : UInt8
  pin : UInt8
  edge : UInt8
  reserved : UInt8
  debounceMs : UInt32
  target : Block 97
deriving DecidableEq

/-- `sizeof(disk_bind_t)`, packed. -/
def diskBindSize : Nat := 105

def DiskBind.encode (d : DiskBind) : List UInt8 :=
  [d.used, d.pin, d.edge, d.reserved] ++ (leBytes 4 d.debounceMs.toNat ++ d.target.1)

def DiskBind.decode (bs : List UInt8) (h : bs.length = diskBindSize) : DiskBind where
  used := bs.getD 0 0
  pin := bs.getD 1 0
  edge := bs.getD 2 0
  reserved := bs.getD 3 0
  debounceMs := UInt32.ofNat (leNat (field 4 4 bs))
  target := ⟨field 8 97 bs, field_length (by rw [h]; decide)⟩

/-- An entry that was never filled in. -/
def DiskBind.zero : DiskBind :=
  { used := 0, pin := 0, edge := 0, reserved := 0, debounceMs := 0,
    target := ⟨List.replicate 97 0, List.length_replicate⟩ }

/-- `disk_record_t`. -/
structure DiskRecord where
  magic : UInt32
  version : UInt16
  count : UInt16
  entries : Fin bindSlotCount → DiskBind
  crc32 : UInt32

/-- `sizeof(disk_record_t)`, packed. -/
def diskRecordSize : Nat := 8 + bindSlotCount * diskBindSize + 4

/-- The bytes the checksum covers. -/
def DiskRecord.covered (r : DiskRecord) : List UInt8 :=
  leBytes 4 r.magic.toNat ++ (leBytes 2 r.version.toNat ++ (leBytes 2 r.count.toNat ++
    bindSlots.flatMap fun i => (r.entries i).encode))

def DiskRecord.encode (r : DiskRecord) : List UInt8 := r.covered ++ leBytes 4 r.crc32.toNat

theorem entry_bound {bs : List UInt8} (h : bs.length = diskRecordSize) (i : Fin bindSlotCount) :
    8 + i.1 * diskBindSize + diskBindSize ≤ bs.length := by
  have hi : i.1 < 16 := i.2
  rw [h]
  simp only [diskRecordSize, bindSlotCount, diskBindSize]
  omega

def DiskRecord.decode (bs : List UInt8) (h : bs.length = diskRecordSize) : DiskRecord where
  magic := UInt32.ofNat (leNat (field 0 4 bs))
  version := UInt16.ofNat (leNat (field 4 2 bs))
  count := UInt16.ofNat (leNat (field 6 2 bs))
  entries i := DiskBind.decode (field (8 + i.1 * diskBindSize) diskBindSize bs)
    (field_length (entry_bound h i))
  crc32 := UInt32.ofNat (leNat (field (diskRecordSize - 4) 4 bs))

/-! ## Persistence -/

/-- The entry for a used binding. -/
def BindSlot.toDisk (s : BindSlot) : DiskBind :=
  { used := 1, pin := s.pin, edge := s.edge, reserved := 0, debounceMs := s.debounceMs,
    target := targetBuffer (CString.ofBuffer s.target.1) }

/-- The used bindings, in slot order. -/
def usedBindings (t : BindTable) : List DiskBind :=
  (bindSlots.filter fun i => (t i).used).map fun i => (t i).toDisk

/-- The record `bindings_save` builds. -/
def diskRecord (t : BindTable) : DiskRecord :=
  let used := usedBindings t
  let r : DiskRecord :=
    { magic := bindMagic, version := bindVersion, count := UInt16.ofNat used.length,
      entries := fun i => used.getD i.1 .zero, crc32 := 0 }
  { r with crc32 := picoOtaCrc32 r.covered }

/-- The sector image `bindings_save` programs. -/
def DiskRecord.sector (r : DiskRecord) : List UInt8 :=
  r.encode ++ List.replicate (flashSectorSize - diskRecordSize) 0xFF

/-- `bindings_save`. -/
def bindingsSave (ok : Nat → Bool) (t : BindTable) (f : Flash) : Flash × Bool :=
  rewriteSector ok bindStorageOffset (diskRecord t).sector f

/-- The loop of `bindings_load` that installs the stored entries. -/
def installEntries : List DiskBind → BindTable → BindTable
  | [], t => t
  | d :: ds, t =>
    if d.used = 0 then installEntries ds t
    else installEntries ds
      ((bindingsAdd d.pin.toNat d.edge (CString.ofBuffer d.target.1) d.debounceMs t).getD t)

/-- `bindings_load`: the new table, or `none` for false. -/
def bindingsLoad (f : Image) (t : BindTable) : Option BindTable :=
  let r := DiskRecord.decode (read bindStorageOffset diskRecordSize f) (read_length _ _ _)
  if r.magic ≠ bindMagic ∨ r.version ≠ bindVersion then none
  else if picoOtaCrc32 r.covered ≠ r.crc32 then none
  else if r.count.toNat > bindSlotCount then none
  else
    some (installEntries ((bindSlots.filter fun i => i.1 < r.count.toNat).map r.entries)
      fun i => { t i with used := false })

/-- An erased sector holds no bindings. -/
theorem bindingsLoad_blank {f : Image} (h : Blank bindStorageOffset flashSectorSize f)
    (t : BindTable) : bindingsLoad f t = none := by
  have hread : read bindStorageOffset diskRecordSize f = List.replicate diskRecordSize 0xFF :=
    read_blank (h.mono (Nat.le_refl _) (Nat.add_le_add_left (by decide) _))
  have hmagic : (DiskRecord.decode (read bindStorageOffset diskRecordSize f)
      (read_length _ _ _)).magic ≠ bindMagic := by
    have hfield : field 0 4 (List.replicate diskRecordSize 0xFF) =
        List.replicate 4 (0xFF : UInt8) := by
      rw [field, List.drop_zero, List.take_replicate]
      rfl
    show UInt32.ofNat (leNat (field 0 4 (read bindStorageOffset diskRecordSize f))) ≠ bindMagic
    rw [hread, hfield]
    decide
  unfold bindingsLoad
  exact if_pos (.inl hmagic)

end PicoBLE.System
