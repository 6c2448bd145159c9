import PicoBLE.Ota.App

/-!
# `bootloader/main.c`

One run of the bootloader from reset: it reads the record, counts an attempt or
rolls back when the active slot is on probation, and jumps to a slot that looks
valid. Power can be lost during a run: `power k` says whether its `k`-th flash
operation still happens.
-/

namespace PicoBLE.Bootloader

open NorFlash Bytes
open PicoBLE.Ota

/-- How a run ends. -/
inductive Boot where
  /-- A slot has been entered. -/
  | jumped (slot : Slot)
  | bootsel
  | rebooted
  | powerLost
deriving DecidableEq, Repr

/-! ## Slots -/

/-- `*(volatile uint32_t *)(XIP_BASE + off)`. -/
def word (off : Nat) (f : Image) : UInt32 := UInt32.ofNat (leNat (read off 4 f))

/-- `slot_looks_valid`. -/
def slotLooksValid (slot : Slot) (f : Image) : Bool :=
  let vt := slot.offset + 256
  let sp := word vt f
  let entry := word (vt + 4) f
  sp ≥ 0x20000000 && sp ≤ 0x20042000 && (entry &&& 1) ≠ 0 &&
    entry ≥ 0x10000000 && entry ≤ 0x10200000

/-- `jump_to_slot`. -/
def jumpToSlot (slot : Slot) (f : Image) : Boot :=
  let vt := slot.offset + 256
  let sp := word vt f
  let entry := word (vt + 4) f
  if sp < 0x20000000 ∨ sp > 0x20042000 then .bootsel
  else if (entry &&& 1) = 0 then .bootsel
  else if entry < 0x10000000 ∨ entry > 0x10200000 then .bootsel
  else .jumped slot

/-- The two checks agree. -/
theorem jumpToSlot_valid {slot : Slot} {f : Image} (h : slotLooksValid slot f = true) :
    jumpToSlot slot f = .jumped slot := by
  unfold slotLooksValid at h
  simp only [Bool.and_eq_true, decide_eq_true_eq] at h
  obtain ⟨⟨⟨⟨h1, h2⟩, h3⟩, h4⟩, h5⟩ := h
  unfold jumpToSlot
  dsimp only
  rw [if_neg (not_or.mpr ⟨UInt32.not_lt.mpr h1, UInt32.not_lt.mpr h2⟩), if_neg h3,
    if_neg (not_or.mpr ⟨UInt32.not_lt.mpr h4, UInt32.not_lt.mpr h5⟩)]

/-- Both look at the vector table only. -/
theorem slotLooksValid_congr {slot : Slot} {f g : Image}
    (h : ∀ i, i < 8 → f (slot.offset + 256 + i) = g (slot.offset + 256 + i)) :
    slotLooksValid slot f = slotLooksValid slot g := by
  have h0 : word (slot.offset + 256) f = word (slot.offset + 256) g := by
    unfold word; rw [read_congr fun i hi => h i (by omega)]
  have h4 : word (slot.offset + 256 + 4) f = word (slot.offset + 256 + 4) g := by
    unfold word
    rw [read_congr fun i hi => ?_]
    rw [Nat.add_assoc _ 4 i]; exact h (4 + i) (by omega)
  unfold slotLooksValid
  dsimp only
  rw [h0, h4]

/-- An erased vector table is not a plausible one. -/
theorem slotLooksValid_blank {slot : Slot} {f : Image} (h : Blank (slot.offset + 256) 4 f) :
    slotLooksValid slot f = false := by
  have hsp : word (slot.offset + 256) f = 0xFFFFFFFF := by
    unfold word; rw [read_blank h]; rfl
  unfold slotLooksValid
  dsimp only
  rw [hsp]
  rfl

/-! ## The run -/

/-- `write_metadata`. -/
def writeMetadata (power : Nat → Bool) (m : OtaMetadata) (f : Flash) : Flash × Bool :=
  match eraseRange (power 0) otaMetadataOffset flashSectorSize f with
  | (f, false) => (f, false)
  | (f, true) => programPage (power 1) otaMetadataOffset m.seal.page f

/-- The two programs write the record alike. -/
theorem writeMetadata_eq : writeMetadata = Ota.writeMetadata := rfl

/-- Write the record, then go on unless power is gone. -/
def writeThen (power : Nat → Bool) (m : OtaMetadata) (f : Flash) (next : Flash → Flash × Boot) :
    Flash × Boot :=
  match writeMetadata power m f with
  | (f, false) => (f, .powerLost)
  | (f, true) => next f

/-- The record with the other slot active and off probation. -/
def flipped (m : OtaMetadata) : OtaMetadata :=
  { m with activeSlot := m.activeSlot ^^^ 1, pendingVerify := 0, bootAttempts := 0 }

/-- The last part of `main`: enter the active slot, or the other one in its place. -/
def enterActive (power : Nat → Bool) (m : OtaMetadata) (f : Flash) : Flash × Boot :=
  let slot := Slot.ofByte m.activeSlot
  if ¬ slotLooksValid slot f.image then
    if slotLooksValid slot.other f.image then
      writeThen power (flipped m) f fun f => (f, jumpToSlot slot.other f.image)
    else (f, .bootsel)
  else (f, jumpToSlot slot f.image)

/-- `main`. -/
def main (power : Nat → Bool) (f : Flash) : Flash × Boot :=
  match readMetadata f.image with
  | none =>
    if slotLooksValid .a f.image then
      writeThen power (freshRecord .a) f fun f => (f, jumpToSlot .a f.image)
    else (f, .bootsel)
  | some m =>
    if m.pendingVerify ≠ 0 ∧ m.bootAttempts ≥ otaMaxBootAttempts then
      writeThen power (flipped m) f fun f => (f, .rebooted)
    else if m.pendingVerify ≠ 0 then
      let m := { m with bootAttempts := m.bootAttempts + 1 }
      writeThen power m f fun f => enterActive (fun k => power (k + 2)) m f
    else enterActive power m f

/-! ## What a run can do -/

/-- A write that goes on: power is lost over the old record or over none, or the
new record is in place. -/
theorem writeThen_cases (power : Nat → Bool) (m : OtaMetadata) (f : Flash)
    (next : Flash → Flash × Boot) (hm : m.magic = otaMetaMagic) (hv : m.version = otaMetaVersion) :
    (∃ f', writeThen power m f next = (f', .powerLost) ∧
      (f' = f ∨ readMetadata f'.image = none ∧ SameSlots f.image f'.image)) ∨
    (∃ f', writeThen power m f next = next f' ∧
      readMetadata f'.image = some { m with crc32 := 0 } ∧ SameSlots f.image f'.image) := by
  unfold writeThen
  rw [writeMetadata_eq]
  rcases writeMetadata_cases power m f with ⟨-, he⟩ | ⟨-, -, f', he, hn, hs⟩
    | ⟨-, -, f', he, hr, hs⟩
  · exact .inl ⟨f, by rw [he], .inl rfl⟩
  · exact .inl ⟨f', by rw [he], .inr ⟨hn, hs⟩⟩
  · exact .inr ⟨f', by rw [he], hr hm hv, hs⟩

/-- With power throughout, it goes on. -/
theorem writeThen_ok (power : Nat → Bool) (m : OtaMetadata) (f : Flash)
    (next : Flash → Flash × Boot) (hm : m.magic = otaMetaMagic) (hv : m.version = otaMetaVersion)
    (h0 : power 0 = true) (h1 : power 1 = true) :
    ∃ f', writeThen power m f next = next f' ∧
      readMetadata f'.image = some { m with crc32 := 0 } ∧ SameSlots f.image f'.image := by
  unfold writeThen
  rw [writeMetadata_eq]
  rcases writeMetadata_cases power m f with ⟨h, -⟩ | ⟨-, h, -⟩ | ⟨-, -, f', he, hr, hs⟩
  · exact absurd (h0.symm.trans h) (by simp)
  · exact absurd (h1.symm.trans h) (by simp)
  · exact ⟨f', by rw [he], hr hm hv, hs⟩

/-- When power is lost between the two operations, no record is left. -/
theorem writeThen_lost {power : Nat → Bool} (m : OtaMetadata) (f : Flash)
    (next : Flash → Flash × Boot) (h0 : power 0 = true) (h1 : power 1 = false) :
    ∃ f', writeThen power m f next = (f', .powerLost) ∧ readMetadata f'.image = none ∧
      SameSlots f.image f'.image := by
  unfold writeThen
  rw [writeMetadata_eq]
  rcases writeMetadata_cases power m f with ⟨h, -⟩ | ⟨-, -, f', he, hn, hs⟩ | ⟨-, h, -⟩
  · exact absurd (h0.symm.trans h) (by simp)
  · exact ⟨f', by rw [he], hn, hs⟩
  · exact absurd (h1.symm.trans h) (by simp)

section Main

variable {power : Nat → Bool} {m : OtaMetadata} {f : Flash}

theorem main_noRecord (h : readMetadata f.image = none) (hv : slotLooksValid .a f.image = true) :
    main power f = writeThen power (freshRecord .a) f fun f => (f, jumpToSlot .a f.image) := by
  unfold main; rw [h]; exact if_pos hv

theorem main_nothing (h : readMetadata f.image = none) (hv : slotLooksValid .a f.image = false) :
    main power f = (f, .bootsel) := by
  unfold main; rw [h]; exact if_neg (by rw [hv]; exact Bool.false_ne_true)

theorem main_rollback (h : readMetadata f.image = some m) (hp : m.pendingVerify ≠ 0)
    (ha : otaMaxBootAttempts ≤ m.bootAttempts) :
    main power f = writeThen power (flipped m) f fun f => (f, .rebooted) := by
  unfold main; rw [h]; exact if_pos ⟨hp, ha⟩

theorem main_attempt (h : readMetadata f.image = some m) (hp : m.pendingVerify ≠ 0)
    (ha : ¬ otaMaxBootAttempts ≤ m.bootAttempts) :
    main power f = writeThen power { m with bootAttempts := m.bootAttempts + 1 } f fun f =>
      enterActive (fun k => power (k + 2)) { m with bootAttempts := m.bootAttempts + 1 } f := by
  unfold main; rw [h]; dsimp only; rw [if_neg fun h => ha h.2, if_pos hp]

theorem main_settled (h : readMetadata f.image = some m) (hp : m.pendingVerify = 0) :
    main power f = enterActive power m f := by
  unfold main; rw [h]; dsimp only; rw [if_neg fun h => h.1 hp, if_neg (not_not.mpr hp)]

theorem enterActive_valid {t : Slot} (ht : Slot.ofByte m.activeSlot = t)
    (hv : slotLooksValid t f.image = true) : enterActive power m f = (f, .jumped t) := by
  subst ht
  unfold enterActive
  dsimp only
  rw [if_neg (not_not.mpr hv), jumpToSlot_valid hv]

theorem enterActive_other {t : Slot} (ht : Slot.ofByte m.activeSlot = t)
    (hv : slotLooksValid t f.image = false) (ho : slotLooksValid t.other f.image = true) :
    enterActive power m f
      = writeThen power (flipped m) f fun f => (f, jumpToSlot t.other f.image) := by
  subst ht
  unfold enterActive
  dsimp only
  rw [if_pos (by rw [hv]; exact Bool.false_ne_true), if_pos ho]

theorem enterActive_none {t : Slot} (ht : Slot.ofByte m.activeSlot = t)
    (hv : slotLooksValid t f.image = false) (ho : slotLooksValid t.other f.image = false) :
    enterActive power m f = (f, .bootsel) := by
  subst ht
  unfold enterActive
  dsimp only
  rw [if_pos (by rw [hv]; exact Bool.false_ne_true), if_neg (by rw [ho]; exact Bool.false_ne_true)]

end Main

end PicoBLE.Bootloader
