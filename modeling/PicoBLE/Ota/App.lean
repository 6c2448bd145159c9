import PicoBLE.Ota.Metadata

/-!
# `ota.c`: the application side

The static state of `ota.c` and its entry points, as functions on that state
and the flash. `PICO_OTA_SLOT`, fixed when an image is built, is the argument
`slot`. Each function that touches flash takes `ok : Nat → Bool`: whether its
first, second, ... call of `flash_safe_execute` returns `PICO_OK`.

Sizes and offsets are `size_t` and `uint32_t`, 32 bits on the RP2040.
-/

namespace PicoBLE.Ota

open NorFlash
open PicoBLE.Sha256

/-- `ota_result_t`. -/
inductive OtaResult where
  | ok
  | errBusy
  | errNotStarted
  | errSize
  | errRange
  | errVerify
  | errUnsupported
  | errIo
  | errNoImage
deriving DecidableEq, Repr

/-- `ota_status_t`. -/
structure OtaStatus where
  activeSlot : Slot
  stagingSlot : Slot
  updateInProgress : Bool
  pendingVerify : Bool
  bootAttempts : UInt8
  imageReady : Bool
  stagingSize : Nat
  bytesWritten : Nat
  computedSha256 : Digest
deriving DecidableEq

/-- `g_page_buf` with `g_page_buf_len`: the bytes waiting for a full page. -/
structure PageBuf where
  bytes : List UInt8
  /-- The buffer is one page long. -/
  le : bytes.length ≤ flashPageSize
deriving DecidableEq

/-- `g_page_buf_len = 0`. -/
def PageBuf.empty : PageBuf := ⟨[], Nat.zero_le _⟩

/-- The static variables of `ota.c`. -/
structure OtaState where
  status : OtaStatus
  sha : Sha256Ctx
  page : PageBuf
  nextPageOff : Nat

/-- `memset(&g_status, 0, sizeof(g_status))`. -/
def OtaStatus.zero : OtaStatus where
  activeSlot := .a
  stagingSlot := .a
  updateInProgress := false
  pendingVerify := false
  bootAttempts := 0
  imageReady := false
  stagingSize := 0
  bytesWritten := 0
  computedSha256 := zeroDigest

/-- The variables as a reset leaves them: the bss is cleared. -/
def OtaState.zero : OtaState where
  status := OtaStatus.zero
  sha := ⟨⟨0, 0, 0, 0, 0, 0, 0, 0⟩, 0, []⟩
  page := PageBuf.empty
  nextPageOff := 0

/-- What the functions of `ota.c` work on. -/
structure App where
  flash : Flash
  ota : OtaState

/-! ## Metadata -/

/-- `write_metadata`. -/
def writeMetadata (ok : Nat → Bool) (m : OtaMetadata) (f : Flash) : Flash × Bool :=
  match eraseRange (ok 0) otaMetadataOffset flashSectorSize f with
  | (f, false) => (f, false)
  | (f, true) => programPage (ok 1) otaMetadataOffset m.seal.page f

/-- The metadata sector is the only one a metadata write touches. -/
def SameSlots (f g : Image) : Prop := SameOutside otaMetadataOffset flashSectorSize f g

/-- **What a metadata write can leave**: the old record, no record at all, or
the new one. -/
theorem writeMetadata_cases (ok : Nat → Bool) (m : OtaMetadata) (f : Flash) :
    (ok 0 = false ∧ writeMetadata ok m f = (f, false)) ∨
    (ok 0 = true ∧ ok 1 = false ∧ ∃ f', writeMetadata ok m f = (f', false) ∧
      readMetadata f'.image = none ∧ SameSlots f.image f'.image) ∨
    (ok 0 = true ∧ ok 1 = true ∧ ∃ f', writeMetadata ok m f = (f', true) ∧
      (m.magic = otaMetaMagic → m.version = otaMetaVersion →
        readMetadata f'.image = some { m with crc32 := 0 }) ∧
      SameSlots f.image f'.image) := by
  have hP : flashPageSize = 256 := rfl
  have hS : flashSectorSize = 4096 := rfl
  have hM : metadataSize = 88 := rfl
  have hsame : SameSlots f.image (flashRangeErase otaMetadataOffset flashSectorSize f).image :=
    erase_sameOutside _ (Nat.le_refl _) (Nat.le_refl _)
  have hblank := erase_blank otaMetadataOffset flashSectorSize f.image
  unfold writeMetadata
  cases h0 : ok 0 with
  | false => exact .inl ⟨rfl, by rw [eraseRange_false]⟩
  | true =>
    rw [eraseRange_true]
    cases h1 : ok 1 with
    | false =>
      refine .inr (.inl ⟨rfl, rfl, _, by dsimp only; rw [programPage_false], ?_, hsame⟩)
      exact readMetadata_blank (hblank.mono (Nat.le_refl _) (by omega))
    | true =>
      refine .inr (.inr ⟨rfl, rfl, _, by dsimp only; rw [programPage_true], fun hm hv => ?_, ?_⟩)
      · exact readMetadata_program hm hv (hblank.mono (Nat.le_refl _) (by omega))
      · refine hsame.trans (program_sameOutside _ (Nat.le_refl _) ?_)
        rw [OtaMetadata.page_length]; omega

/-- A record that reflects who we are. -/
def freshRecord (slot : Slot) : OtaMetadata where
  magic := otaMetaMagic
  version := otaMetaVersion
  activeSlot := slot.byte
  pendingVerify := 0
  bootAttempts := 0
  reserved := (0, 0, 0)
  imageSize := ⟨0, 0⟩
  imageSha256 := ⟨zeroDigest, zeroDigest⟩
  crc32 := 0

/-- The record `update_metadata` starts from. -/
def currentRecord (slot : Slot) (f : Image) : OtaMetadata :=
  match readMetadata f with
  | some m => m
  | none => freshRecord slot

/-- `update_metadata`. -/
def updateMetadata (slot : Slot) (ok : Nat → Bool) (mutator : OtaMetadata → OtaMetadata)
    (f : Flash) : Flash × Bool :=
  writeMetadata ok (mutator (currentRecord slot f.image)) f

/-! ## Lifecycle -/

/-- `ota_init`. -/
def otaInit (slot : Slot) (ok : Nat → Bool) (s : App) : App :=
  let status := OtaStatus.zero
  match readMetadata s.flash.image with
  | some m =>
    { s with ota := { s.ota with status := { status with
        pendingVerify := m.pendingVerify ≠ 0
        bootAttempts := m.bootAttempts
        activeSlot := slot
        stagingSlot := slot.other } } }
  | none =>
    { s with
        flash := (writeMetadata ok (freshRecord slot) s.flash).1
        ota := { s.ota with status := { status with
          activeSlot := slot
          stagingSlot := slot.other } } }

/-! ## Begin, write, finalize -/

/-- The erase loop of `ota_begin`: `n` sectors from the `k`-th. -/
def eraseSectors (ok : Nat → Bool) (base : Nat) : Nat → Nat → Flash → Flash × Bool
  | 0, _, f => (f, true)
  | n + 1, k, f =>
    match eraseRange (ok k) (base + k * flashSectorSize) flashSectorSize f with
    | (f, false) => (f, false)
    | (f, true) => eraseSectors ok base n (k + 1) f

/-- Sectors in a slot. -/
def otaSlotSectors : Nat := otaSlotSize / flashSectorSize

/-- `ota_begin`. -/
def otaBegin (ok : Nat → Bool) (imageSize : Nat) (s : App) : App × OtaResult :=
  if s.ota.status.updateInProgress then (s, .errBusy)
  else if imageSize > otaSlotSize then (s, .errSize)
  else
    match eraseSectors ok s.ota.status.stagingSlot.offset otaSlotSectors 0 s.flash with
    | (flash, false) => ({ s with flash := flash }, .errIo)
    | (flash, true) =>
      ({ flash := flash
         ota := {
          status := { s.ota.status with
            updateInProgress := true
            imageReady := false
            stagingSize := imageSize
            bytesWritten := 0
            computedSha256 := zeroDigest }
          sha := sha256Init
          page := PageBuf.empty
          nextPageOff := 0 } }, .ok)

section Begin

variable {ok : Nat → Bool} {n : Nat} {s : App}

theorem otaBegin_busy (h : s.ota.status.updateInProgress = true) :
    otaBegin ok n s = (s, .errBusy) := by
  unfold otaBegin; rw [if_pos h]

theorem otaBegin_size (h : s.ota.status.updateInProgress = false) (hn : n > otaSlotSize) :
    otaBegin ok n s = (s, .errSize) := by
  unfold otaBegin; rw [h, if_neg Bool.false_ne_true, if_pos hn]

/-- An erase loop that fails leaves its erases behind, and the status as it was. -/
theorem otaBegin_io (h : s.ota.status.updateInProgress = false) (hn : n ≤ otaSlotSize) {f : Flash}
    (he : eraseSectors ok s.ota.status.stagingSlot.offset otaSlotSectors 0 s.flash = (f, false)) :
    otaBegin ok n s = ({ s with flash := f }, .errIo) := by
  unfold otaBegin; rw [h, if_neg Bool.false_ne_true, if_neg (Nat.not_lt.mpr hn), he]

/-- The state `ota_begin` returns `OTA_OK` in. -/
def App.begun (n : Nat) (f : Flash) (s : App) : App where
  flash := f
  ota := {
    status := { s.ota.status with
      updateInProgress := true
      imageReady := false
      stagingSize := n
      bytesWritten := 0
      computedSha256 := zeroDigest }
    sha := sha256Init
    page := PageBuf.empty
    nextPageOff := 0 }

theorem otaBegin_ok (h : s.ota.status.updateInProgress = false) (hn : n ≤ otaSlotSize) {f : Flash}
    (he : eraseSectors ok s.ota.status.stagingSlot.offset otaSlotSectors 0 s.flash = (f, true)) :
    otaBegin ok n s = (s.begun n f, .ok) := by
  unfold otaBegin; rw [h, if_neg Bool.false_ne_true, if_neg (Nat.not_lt.mpr hn), he]; rfl

/-- **What `ota_begin` can do.** -/
theorem otaBegin_cases (ok : Nat → Bool) (n : Nat) (s : App) :
    (∃ r, r ≠ .ok ∧ otaBegin ok n s = (s, r) ∧ (s.ota.status.updateInProgress = true ∨
      n > otaSlotSize)) ∨
    (s.ota.status.updateInProgress = false ∧ n ≤ otaSlotSize ∧ ∃ f,
      eraseSectors ok s.ota.status.stagingSlot.offset otaSlotSectors 0 s.flash = (f, false) ∧
      otaBegin ok n s = ({ s with flash := f }, .errIo)) ∨
    (s.ota.status.updateInProgress = false ∧ n ≤ otaSlotSize ∧ ∃ f,
      eraseSectors ok s.ota.status.stagingSlot.offset otaSlotSectors 0 s.flash = (f, true) ∧
      otaBegin ok n s = (s.begun n f, .ok)) := by
  cases h : s.ota.status.updateInProgress with
  | true => exact .inl ⟨.errBusy, by decide, otaBegin_busy h, .inl rfl⟩
  | false =>
    by_cases hn : n ≤ otaSlotSize
    · rcases he : eraseSectors ok s.ota.status.stagingSlot.offset otaSlotSectors 0 s.flash
        with ⟨f, _ | _⟩
      · exact .inr (.inl ⟨rfl, hn, f, rfl, otaBegin_io h hn he⟩)
      · exact .inr (.inr ⟨rfl, hn, f, rfl, otaBegin_ok h hn he⟩)
    · have hn := Nat.lt_of_not_le hn
      exact .inl ⟨.errSize, by decide, otaBegin_size h hn, .inr hn⟩

end Begin

/-- The part of the state the page loop works on. -/
structure Pages where
  flash : Flash
  page : PageBuf
  nextPageOff : Nat

/-- Copy as much of `data` as fits. -/
def PageBuf.fill (p : PageBuf) (data : List UInt8) : PageBuf :=
  ⟨p.bytes ++ data.take (flashPageSize - p.bytes.length), by
    have := p.le
    rw [List.length_append, List.length_take]; omega⟩

/-- The loop of `ota_write`: `k` counts the pages programmed so far. -/
def writePages (ok : Nat → Bool) (base : Nat) (k : Nat) (s : Pages) (data : List UInt8) :
    Pages × OtaResult :=
  if data = [] then (s, .ok)
  else if (s.page.fill data).bytes.length = flashPageSize then
    match programPage (ok k) (base + s.nextPageOff) (s.page.fill data).bytes s.flash with
    | (flash, false) => ({ s with flash := flash, page := s.page.fill data }, .errIo)
    | (flash, true) =>
      writePages ok base (k + 1)
        ⟨flash, PageBuf.empty, (s.nextPageOff + flashPageSize) % 2 ^ 32⟩
        (data.drop (flashPageSize - s.page.bytes.length))
  else ({ s with page := s.page.fill data }, .ok)
termination_by 2 * data.length + (1 - (flashPageSize - s.page.bytes.length))
decreasing_by
  -- either some input is used up, or a full buffer is emptied
  have hpos : 0 < data.length := List.length_pos_iff.mpr ‹_›
  have hle := s.page.le
  have hP : flashPageSize = 256 := rfl
  simp only [PageBuf.empty, List.length_drop, List.length_nil]
  omega

/-- `limit` of `ota_write`: the announced size, or the slot when none was announced. -/
def OtaStatus.limit (st : OtaStatus) : Nat :=
  if st.stagingSize ≠ 0 then st.stagingSize else otaSlotSize

/-- `ota_write`; `data = none` is a null pointer. -/
def otaWrite (ok : Nat → Bool) (offset : Nat) (data : Option (List UInt8)) (s : App) :
    App × OtaResult :=
  let st := s.ota.status
  if ¬ st.updateInProgress then (s, .errNotStarted)
  else
    match data with
    | none => (s, .errRange)
    | some data =>
      if data.length = 0 then (s, .errRange)
      else if offset ≠ st.bytesWritten then (s, .errRange)
      else if (offset + data.length) % 2 ^ 32 > st.limit then (s, .errRange)
      else
        let sha := sha256Update s.ota.sha data
        let status := { st with bytesWritten := (st.bytesWritten + data.length) % 2 ^ 32 }
        let (p, r) :=
          writePages ok st.stagingSlot.offset 0 ⟨s.flash, s.ota.page, s.ota.nextPageOff⟩ data
        ({ flash := p.flash
           ota := { status := status, sha := sha, page := p.page
                    nextPageOff := p.nextPageOff } }, r)

/-- The checks of `ota_write`. -/
def OtaStatus.Accepts (st : OtaStatus) (offset : Nat) (data : List UInt8) : Prop :=
  st.updateInProgress = true ∧ data ≠ [] ∧ offset = st.bytesWritten
    ∧ (offset + data.length) % 2 ^ 32 ≤ st.limit

/-- The part of `ota_write` behind its checks. -/
def App.wrote (ok : Nat → Bool) (data : List UInt8) (s : App) : App × OtaResult :=
  let w := writePages ok s.ota.status.stagingSlot.offset 0
    ⟨s.flash, s.ota.page, s.ota.nextPageOff⟩ data
  ({ flash := w.1.flash
     ota := {
      status := { s.ota.status with
        bytesWritten := (s.ota.status.bytesWritten + data.length) % 2 ^ 32 }
      sha := sha256Update s.ota.sha data
      page := w.1.page
      nextPageOff := w.1.nextPageOff } }, w.2)

theorem otaWrite_accepted {offset : Nat} {data : List UInt8} {s : App}
    (h : s.ota.status.Accepts offset data) (ok : Nat → Bool) :
    otaWrite ok offset (some data) s = s.wrote ok data := by
  obtain ⟨hp, hne, hoff, hlim⟩ := h
  have hlen : data.length ≠ 0 := fun h0 => hne (List.length_eq_zero_iff.mp h0)
  unfold otaWrite
  dsimp only
  rw [if_neg (not_not.mpr hp), if_neg hlen, if_neg (not_not.mpr hoff), if_neg (Nat.not_lt.mpr hlim)]
  rfl

theorem otaWrite_none (ok : Nat → Bool) (offset : Nat) (s : App) :
    ∃ r, (r = .errNotStarted ∨ r = .errRange) ∧ otaWrite ok offset none s = (s, r) := by
  by_cases hp : s.ota.status.updateInProgress
  · exact ⟨_, .inr rfl, by unfold otaWrite; dsimp only; rw [if_neg (not_not.mpr hp)]⟩
  · exact ⟨_, .inl rfl, by unfold otaWrite; dsimp only; rw [if_pos hp]⟩

/-- A write that fails a check changes nothing. -/
theorem otaWrite_rejected {offset : Nat} {data : List UInt8} {s : App}
    (h : ¬ s.ota.status.Accepts offset data) (ok : Nat → Bool) :
    ∃ r, (r = .errNotStarted ∨ r = .errRange) ∧ otaWrite ok offset (some data) s = (s, r) := by
  unfold otaWrite
  dsimp only
  by_cases hp : s.ota.status.updateInProgress = true
  · rw [if_neg (not_not.mpr hp)]
    refine ⟨_, .inr rfl, ?_⟩
    by_cases hlen : data.length = 0
    · rw [if_pos hlen]
    · rw [if_neg hlen]
      by_cases hoff : offset = s.ota.status.bytesWritten
      · rw [if_neg (not_not.mpr hoff)]
        refine if_pos (Nat.lt_of_not_le fun hlim => h ⟨hp, ?_, hoff, hlim⟩)
        rintro rfl
        exact hlen rfl
      · rw [if_pos hoff]
  · exact ⟨_, .inl rfl, if_pos hp⟩

/-- `g_page_buf` padded with `0xFF` to a full page. -/
def PageBuf.padded (p : PageBuf) : List UInt8 :=
  p.bytes ++ List.replicate (flashPageSize - p.bytes.length) 0xFF

/-- The flush of the partial page in `ota_finalize`. -/
def flushPage (ok : Bool) (base : Nat) (s : Pages) : Pages × Bool :=
  if s.page.bytes.length > 0 then
    match programPage ok (base + s.nextPageOff) s.page.padded s.flash with
    | (flash, false) => ({ s with flash := flash }, false)
    | (flash, true) =>
      (⟨flash, PageBuf.empty, (s.nextPageOff + flashPageSize) % 2 ^ 32⟩, true)
  else (s, true)

/-- `ota_finalize`. -/
def otaFinalize (ok : Nat → Bool) (s : App) : App × OtaResult :=
  let st := s.ota.status
  if ¬ st.updateInProgress then (s, .errNotStarted)
  else
    match flushPage (ok 0) st.stagingSlot.offset ⟨s.flash, s.ota.page, s.ota.nextPageOff⟩ with
    | (p, false) =>
      ({ flash := p.flash
         ota := { s.ota with page := p.page, nextPageOff := p.nextPageOff } }, .errIo)
    | (p, true) =>
      let (sha, digest) := sha256Final s.ota.sha
      ({ flash := p.flash
         ota := {
          status := { st with
            computedSha256 := digest
            updateInProgress := false
            imageReady := true }
          sha := sha
          page := p.page
          nextPageOff := p.nextPageOff } }, .ok)

section Finalize

variable {ok : Nat → Bool} {s : App}

theorem otaFinalize_idle (h : s.ota.status.updateInProgress = false) :
    otaFinalize ok s = (s, .errNotStarted) := by
  unfold otaFinalize
  dsimp only
  rw [h, if_pos Bool.false_ne_true]

/-- The state `ota_finalize` returns `OTA_OK` in. -/
def App.finalized (p : Pages) (s : App) : App where
  flash := p.flash
  ota := {
    status := { s.ota.status with
      computedSha256 := (sha256Final s.ota.sha).2
      updateInProgress := false
      imageReady := true }
    sha := (sha256Final s.ota.sha).1
    page := p.page
    nextPageOff := p.nextPageOff }

theorem otaFinalize_ok (h : s.ota.status.updateInProgress = true) {p : Pages}
    (hf : flushPage (ok 0) s.ota.status.stagingSlot.offset ⟨s.flash, s.ota.page, s.ota.nextPageOff⟩
      = (p, true)) :
    otaFinalize ok s = (s.finalized p, .ok) := by
  unfold otaFinalize
  dsimp only
  rw [if_neg (not_not.mpr h), hf]
  rfl

end Finalize

/-- `ota_abort`. -/
def otaAbort (s : App) : App × OtaResult :=
  if ¬ s.ota.status.updateInProgress then (s, .ok)
  else
    ({ s with ota := { s.ota with
        status := { s.ota.status with
          updateInProgress := false
          imageReady := false
          stagingSize := 0
          bytesWritten := 0
          computedSha256 := zeroDigest }
        page := PageBuf.empty
        nextPageOff := 0 } }, .ok)

/-! ## Verify, apply, confirm -/

/-- `ota_verify`; `expected = none` is a null pointer. -/
def otaVerify (expected : Option Digest) (s : App) : OtaResult :=
  if ¬ s.ota.status.imageReady then .errNotStarted
  else
    match expected with
    | none => .errRange
    | some d => if sha256Equal s.ota.status.computedSha256 d then .ok else .errVerify

/-- `apply_mutator`, on the captured status. -/
def applyMutator (capture : OtaStatus) (m : OtaMetadata) : OtaMetadata :=
  let newActive := capture.stagingSlot
  { m with
    activeSlot := newActive.byte
    pendingVerify := 1
    bootAttempts := 0
    imageSize := m.imageSize.set newActive (UInt32.ofNat capture.bytesWritten)
    imageSha256 := m.imageSha256.set newActive capture.computedSha256 }

/-- How `ota_apply` ends: it returns an error, or the board reboots. -/
inductive ApplyOutcome where
  | returned (r : OtaResult)
  | rebooted
deriving DecidableEq, Repr

/-- `ota_apply`. -/
def otaApply (slot : Slot) (ok : Nat → Bool) (s : App) : App × ApplyOutcome :=
  if ¬ s.ota.status.imageReady then (s, .returned .errNoImage)
  else
    match updateMetadata slot ok (applyMutator s.ota.status) s.flash with
    | (flash, false) => ({ s with flash := flash }, .returned .errIo)
    | (flash, true) => ({ s with flash := flash }, .rebooted)

/-- `confirm_mutator`. -/
def confirmMutator (m : OtaMetadata) : OtaMetadata :=
  { m with pendingVerify := 0, bootAttempts := 0 }

/-- `ota_confirm`. -/
def otaConfirm (slot : Slot) (ok : Nat → Bool) (s : App) : App :=
  if ¬ s.ota.status.pendingVerify ∧ s.ota.status.bootAttempts = 0 then s
  else
    match updateMetadata slot ok confirmMutator s.flash with
    | (flash, false) => { s with flash := flash }
    | (flash, true) =>
      { flash := flash
        ota :=
          { s.ota with status := { s.ota.status with pendingVerify := false, bootAttempts := 0 } } }

end PicoBLE.Ota
