import PicoBLE.Ota.Metadata
import PicoBLE.Lib.CString
import PicoBLE.Storage.Sector

/-!
# `storage/scripts.c`

Sixteen slots of one sector each. A slot holds a 64-byte header and the text of
one script, or something whose header is not a header. The checksum covers the
header, with its own field cleared, and the text, and not the `0xFF` after it.

There are two readers, one that copies the text and one that hands out a
pointer into the flash. They check the same things.
-/

namespace PicoBLE.Storage

open NorFlash Bytes
open PicoBLE.Ota (Flash flashSectorSize eraseRange programPage picoOtaCrc32)

/-! ## Layout -/

def scriptStorageOffset : Nat := 0x00185000
def scriptSlotSize : Nat := 4 * 1024
def scriptSlotCount : Nat := 16
def scriptNameMax : Nat := 31
def scriptHeaderSize : Nat := 64
def scriptBodyMax : Nat := scriptSlotSize - scriptHeaderSize
def scriptMagic : UInt32 := 0x53435250
def scriptVersion : UInt16 := 1

/-- A slot number. -/
abbrev ScriptSlot := Fin scriptSlotCount

/-- Where a slot starts. -/
def ScriptSlot.offset (slot : ScriptSlot) : Nat := scriptStorageOffset + slot.1 * scriptSlotSize

/-- `script_header_t`. -/
structure ScriptHeader where
  magic : UInt32
  version : UInt16
  reserved : UInt16
  name : Block 32
  bodyLen : UInt32
  crc32 : UInt32
  pad : Block 16
deriving DecidableEq

/-- The header's bytes. -/
def ScriptHeader.encode (h : ScriptHeader) : List UInt8 :=
  leBytes 4 h.magic.toNat ++ (leBytes 2 h.version.toNat ++ (leBytes 2 h.reserved.toNat ++
    (h.name.1 ++ (leBytes 4 h.bodyLen.toNat ++ (leBytes 4 h.crc32.toNat ++ h.pad.1)))))

/-- The header with the given bytes. -/
def ScriptHeader.decode (bs : List UInt8) (h : bs.length = scriptHeaderSize) : ScriptHeader where
  magic := UInt32.ofNat (leNat (field 0 4 bs))
  version := UInt16.ofNat (leNat (field 4 2 bs))
  reserved := UInt16.ofNat (leNat (field 6 2 bs))
  name := ⟨field 8 32 bs, field_length (by rw [h]; decide)⟩
  bodyLen := UInt32.ofNat (leNat (field 40 4 bs))
  crc32 := UInt32.ofNat (leNat (field 44 4 bs))
  pad := ⟨field 48 16 bs, field_length (by rw [h]; decide)⟩

@[simp] theorem ScriptHeader.encode_length (h : ScriptHeader) :
    h.encode.length = scriptHeaderSize := by
  simp [encode, h.name.2, h.pad.2, scriptHeaderSize]

/-- **A header survives its bytes.** -/
theorem ScriptHeader.decode_encode (h : ScriptHeader) (hlen : h.encode.length = scriptHeaderSize) :
    ScriptHeader.decode h.encode hlen = h := by
  have hname := h.name.2
  have hpad := h.pad.2
  have h0 : field 0 4 h.encode = leBytes 4 h.magic.toNat := field_here (by simp)
  have h4 : field 4 2 h.encode = leBytes 2 h.version.toNat := by
    rw [encode, field_skip (k := 4) (by simp) (by omega)]
    exact field_here (by simp)
  have h6 : field 6 2 h.encode = leBytes 2 h.reserved.toNat := by
    rw [encode, field_skip (k := 4) (by simp) (by omega), field_skip (k := 2) (by simp) (by omega)]
    exact field_here (by simp)
  -- the fields from the name on stand after the first eight bytes
  have hrest : ∀ off n, 8 ≤ off → field off n h.encode = field (off - 8) n
      (h.name.1 ++ (leBytes 4 h.bodyLen.toNat ++ (leBytes 4 h.crc32.toNat ++ h.pad.1))) := by
    intro off n hoff
    rw [encode, field_skip (k := 4) (by simp) (by omega), field_skip (k := 2) (by simp) (by omega),
      field_skip (k := 2) (by simp) (by omega)]
    congr 1
  have h8 : field 8 32 h.encode = h.name.1 := by
    rw [hrest 8 32 (by omega)]
    exact field_here hname
  have h40 : field 40 4 h.encode = leBytes 4 h.bodyLen.toNat := by
    rw [hrest 40 4 (by omega), field_skip hname (by omega)]
    exact field_here (by simp)
  have h44 : field 44 4 h.encode = leBytes 4 h.crc32.toNat := by
    rw [hrest 44 4 (by omega), field_skip hname (by omega),
      field_skip (k := 4) (by simp) (by omega)]
    exact field_here (by simp)
  have h48 : field 48 16 h.encode = h.pad.1 := by
    rw [hrest 48 16 (by omega), field_skip hname (by omega),
      field_skip (k := 4) (by simp) (by omega), field_skip (k := 4) (by simp) (by omega)]
    exact field_last hpad
  simp only [decode, h0, h4, h6, h8, h40, h44, h48, ofNat_leBytes32, ofNat_leBytes16]

/-! ## Slot lookup -/

/-- `slot_hdr`. -/
def slotHdr (slot : ScriptSlot) (f : Image) : ScriptHeader :=
  ScriptHeader.decode (read slot.offset scriptHeaderSize f) (read_length _ _ _)

/-- `slot_valid`. -/
def slotValid (slot : ScriptSlot) (f : Image) : Bool :=
  (slotHdr slot f).magic = scriptMagic && (slotHdr slot f).version = scriptVersion

/-- The name in a slot's header, as the string functions see it. -/
def slotName (slot : ScriptSlot) (f : Image) : List UInt8 :=
  CString.ofBuffer (slotHdr slot f).name.1

/-- The slots in the order of the loops over them. -/
def scriptSlots : List ScriptSlot := List.finRange scriptSlotCount

/-- `find_by_name`. -/
def findByName (name : List UInt8) (f : Image) : Option ScriptSlot :=
  scriptSlots.find? fun i => slotValid i f && CString.strncmpEq scriptNameMax (slotName i f) name

/-- `find_free`. -/
def findFree (f : Image) : Option ScriptSlot := scriptSlots.find? fun i => !slotValid i f

/-! ## Names -/

/-- The characters of a name. -/
def nameChar (c : UInt8) : Bool :=
  (65 ≤ c ∧ c ≤ 90) ∨ (97 ≤ c ∧ c ≤ 122) ∨ (48 ≤ c ∧ c ≤ 57) ∨ c = 95 ∨ c = 45 ∨ c = 46

/-- `valid_name`. -/
def validName (name : List UInt8) : Bool :=
  name ≠ [] && name.all nameChar && name.length ≤ scriptNameMax

/-! ## Save -/

/-- The header `scripts_save` builds, its checksum still 0. -/
def freshHeader (name : List UInt8) (bodyLen : Nat) : ScriptHeader where
  magic := scriptMagic
  version := scriptVersion
  reserved := 0
  name := ⟨CString.strncpy scriptNameMax name ++ [0], by
    rw [List.length_append, CString.strncpy_length]; rfl⟩
  bodyLen := UInt32.ofNat bodyLen
  crc32 := 0
  pad := ⟨List.replicate 16 0xFF, List.length_replicate⟩

/-- `compute_crc`, on the header with its checksum cleared and the text. -/
def computeCrc (h : ScriptHeader) (body : List UInt8) : UInt32 :=
  picoOtaCrc32 ({ h with crc32 := 0 }.encode ++ body)

/-- The header with its checksum. -/
def sealedHeader (name body : List UInt8) : ScriptHeader :=
  { freshHeader name body.length with crc32 := computeCrc (freshHeader name body.length) body }

/-- The sector `scripts_save` programs: header, text, then `0xFF`. -/
def slotImage (name body : List UInt8) : List UInt8 :=
  (sealedHeader name body).encode ++ body ++ List.replicate (scriptBodyMax - body.length) 0xFF

/-- The slot a script goes to: the one of its name, else a free one. -/
def slotFor (name : List UInt8) (f : Image) : Option ScriptSlot :=
  match findByName name f with
  | some slot => some slot
  | none => findFree f

/-- `scripts_save`. A body of `none` is a NULL pointer with a length above 0. -/
def scriptsSave (ok : Nat → Bool) (name : List UInt8) (body : Option (List UInt8)) (f : Flash) :
    Flash × Bool :=
  if ¬ validName name then (f, false)
  else
    match body with
    | none => (f, false)
    | some body =>
      if body.length > scriptBodyMax then (f, false)
      else
        match slotFor name f.image with
        | none => (f, false)
        | some slot => rewriteSector ok slot.offset (slotImage name body) f

/-! ## Load, remove, open -/

/-- What both readers check: the length, then the checksum. It is the length that they return. -/
def slotBodyLen (slot : ScriptSlot) (f : Image) : Option Nat :=
  let h := slotHdr slot f
  let bodyLen := h.bodyLen.toNat
  if bodyLen > scriptBodyMax then none
  else if computeCrc h (read (slot.offset + scriptHeaderSize) bodyLen f) ≠ h.crc32 then none
  else some bodyLen

/-- `scripts_load`. `outMax` is the room in `out`, `none` when `out` is NULL: then only
the length of the text is handed over. -/
def scriptsLoad (name : List UInt8) (outMax : Option Nat) (f : Image) : Option (List UInt8) :=
  match findByName name f with
  | none => none
  | some slot =>
    match slotBodyLen slot f with
    | none => none
    | some bodyLen =>
      if outMax.any fun m => bodyLen > m then none
      else some (read (slot.offset + scriptHeaderSize) bodyLen f)

/-- `scripts_remove`. -/
def scriptsRemove (ok : Bool) (name : List UInt8) (f : Flash) : Flash × Bool :=
  match findByName name f.image with
  | none => (f, false)
  | some slot => eraseRange ok slot.offset scriptSlotSize f

/-- What `scripts_open` hands out: where the text is in the flash, and its length. -/
structure OpenScript where
  body : Nat
  bodyLen : Nat
deriving DecidableEq, Repr

/-- `scripts_open`, given `g_open`. On success it becomes true, and `scripts_close` clears it. -/
def scriptsOpen (gOpen : Bool) (name : List UInt8) (f : Image) : Option OpenScript :=
  if gOpen then none
  else
    match findByName name f with
    | none => none
    | some slot =>
      match slotBodyLen slot f with
      | none => none
      | some bodyLen => some ⟨slot.offset + scriptHeaderSize, bodyLen⟩

/-- The text behind the pointer. -/
def OpenScript.text (s : OpenScript) (f : Image) : List UInt8 := read s.body s.bodyLen f

end PicoBLE.Storage
