import PicoBLE.Lib.Locality
import PicoBLE.Ota.Footprint

/-!
# What the update machinery looks at

The bootloader and `ota.c` read the vector tables and the record, and write to
the slots and the record. All of it lies in one region. So two boards whose
flash agrees there take the same decisions, and their flash agrees there
afterwards, whatever else is stored on either.
-/

namespace PicoBLE.Ota

open NorFlash Locality
open PicoBLE.Bootloader

/-- The two slots, and the sector of the record. -/
def otaRegion : Set Nat := {a | otaSlotAOffset ≤ a ∧ a < otaMetadataOffset + flashSectorSize}

variable {R : Set Nat}

/-! ## Flash operations -/

theorem local_eraseRange (ok : Bool) (off len : Nat) :
    Local Flash.image R (eraseRange ok off len) := by
  intro f g h
  cases ok with
  | false => exact ⟨rfl, h⟩
  | true =>
    refine ⟨rfl, fun a ha => ?_⟩
    show NorFlash.erase off len f.image a = NorFlash.erase off len g.image a
    unfold NorFlash.erase
    rw [h ha]

theorem local_programPage (ok : Bool) (off : Nat) (page : List UInt8) :
    Local Flash.image R (programPage ok off page) := by
  intro f g h
  cases ok with
  | false => exact ⟨rfl, h⟩
  | true =>
    refine ⟨rfl, fun a ha => ?_⟩
    show NorFlash.program off page f.image a = NorFlash.program off page g.image a
    unfold NorFlash.program
    rw [h ha]

/-- A second operation, if the first has succeeded. -/
theorem local_andThen {first second : Flash → Flash × Bool} (h1 : Local Flash.image R first)
    (h2 : Local Flash.image R second) : Local Flash.image R fun f =>
      match first f with
      | (f, false) => (f, false)
      | (f, true) => second f := by
  intro f g h
  obtain ⟨f', g', r, hf, hg, hmem⟩ := h1.both h
  dsimp only
  rw [hf, hg]
  cases r with
  | false => exact ⟨rfl, hmem⟩
  | true => exact h2 f' g' hmem

/-! ## Reading -/

section Reading

variable {f g : Image}

/-- Reads inside the region agree. -/
theorem agree_at (h : Set.EqOn f g otaRegion) {a : Nat} (h1 : otaSlotAOffset ≤ a)
    (h2 : a < otaMetadataOffset + flashSectorSize) : f a = g a := h ⟨h1, h2⟩

theorem readMetadata_agree (h : Set.EqOn f g otaRegion) : readMetadata f = readMetadata g := by
  have hsize : metadataSize = 88 := rfl
  have hsector : flashSectorSize = 4096 := rfl
  have hfront : otaSlotAOffset ≤ otaMetadataOffset := by decide
  exact readMetadata_congr fun i hi => agree_at h (by omega) (by omega)

theorem currentRecord_agree (h : Set.EqOn f g otaRegion) (slot : Slot) :
    currentRecord slot f = currentRecord slot g := by
  unfold currentRecord
  rw [readMetadata_agree h]

theorem slot_agree (h : Set.EqOn f g otaRegion) (slot : Slot) {i : Nat} (hi : i < otaSlotSize) :
    f (slot.offset + i) = g (slot.offset + i) := by
  have hend := slot_metadata slot
  have hstart : otaSlotAOffset ≤ slot.offset := by
    cases slot
    · exact Nat.le_refl _
    · exact Nat.le_add_right _ _
  exact agree_at h (by omega) (by omega)

theorem slotLooksValid_agree (h : Set.EqOn f g otaRegion) (slot : Slot) :
    slotLooksValid slot f = slotLooksValid slot g := by
  have hsize : otaSlotSize = 786432 := rfl
  refine slotLooksValid_congr fun i hi => ?_
  rw [Nat.add_assoc]
  exact slot_agree h slot (by omega)

theorem word_agree (h : Set.EqOn f g otaRegion) (slot : Slot) {i : Nat} (hi : i + 4 ≤ otaSlotSize) :
    word (slot.offset + i) f = word (slot.offset + i) g := by
  unfold word
  rw [read_congr fun k hk => ?_]
  rw [Nat.add_assoc]
  exact slot_agree h slot (by omega)

theorem jumpToSlot_agree (h : Set.EqOn f g otaRegion) (slot : Slot) :
    jumpToSlot slot f = jumpToSlot slot g := by
  have hsp := word_agree h slot (i := 256) (by decide)
  have hentry := word_agree h slot (i := 260) (by decide)
  unfold jumpToSlot
  dsimp only
  rw [Nat.add_assoc slot.offset 256 4, hsp, hentry]

end Reading

/-! ## The bootloader -/

theorem local_writeMetadata (ok : Nat → Bool) (m : OtaMetadata) :
    Local Flash.image otaRegion (writeMetadata ok m) :=
  local_andThen (local_eraseRange _ _ _) (local_programPage _ _ _)

theorem local_writeThen (power : Nat → Bool) (m : OtaMetadata) {next : Flash → Flash × Boot}
    (hnext : Local Flash.image otaRegion next) :
    Local Flash.image otaRegion fun f => writeThen power m f next := by
  intro f g h
  obtain ⟨f', g', r, hf, hg, hmem⟩ := (local_writeMetadata power m).both h
  dsimp only
  unfold writeThen
  rw [writeMetadata_eq, hf, hg]
  cases r with
  | false => exact ⟨rfl, hmem⟩
  | true => exact hnext f' g' hmem

theorem local_jump (slot : Slot) : Local Flash.image otaRegion fun f =>
    (f, jumpToSlot slot f.image) :=
  fun _ _ h => ⟨jumpToSlot_agree h slot, h⟩

theorem local_enterActive (power : Nat → Bool) (m : OtaMetadata) :
    Local Flash.image otaRegion (enterActive power m) := by
  intro f g h
  unfold enterActive
  dsimp only
  rw [slotLooksValid_agree h, slotLooksValid_agree h]
  split
  · split
    · exact local_writeThen power _ (local_jump _) f g h
    · exact ⟨rfl, h⟩
  · exact local_jump _ f g h

theorem local_main (power : Nat → Bool) : Local Flash.image otaRegion (main power) := by
  intro f g h
  unfold main
  rw [readMetadata_agree h]
  cases readMetadata g.image with
  | none =>
    dsimp only
    rw [slotLooksValid_agree h]
    split
    · exact local_writeThen power _ (local_jump _) f g h
    · exact ⟨rfl, h⟩
  | some m =>
    dsimp only
    split
    · exact local_writeThen power _ (local_pure _) f g h
    · split
      · exact local_writeThen power _ (local_enterActive _ _) f g h
      · exact local_enterActive power m f g h

/-! ## The application -/

/-- An entry point of `ota.c`, with the variables it finds. -/
def onFlash {ρ : Type} (ota : OtaState) (act : App → App × ρ) (f : Flash) : Flash × OtaState × ρ :=
  ((act ⟨f, ota⟩).1.flash, (act ⟨f, ota⟩).1.ota, (act ⟨f, ota⟩).2)

theorem local_otaInit (slot : Slot) (ok : Nat → Bool) (ota : OtaState) :
    Local Flash.image otaRegion (onFlash ota fun s => (otaInit slot ok s, ())) := by
  intro f g h
  unfold onFlash otaInit
  dsimp only
  rw [readMetadata_agree h]
  cases readMetadata g.image with
  | none => exact ⟨rfl, (local_writeMetadata ok _ f g h).2⟩
  | some m => exact ⟨rfl, h⟩

theorem local_updateMetadata (slot : Slot) (ok : Nat → Bool) (mutator : OtaMetadata → OtaMetadata) :
    Local Flash.image otaRegion (updateMetadata slot ok mutator) := by
  intro f g h
  unfold updateMetadata
  rw [currentRecord_agree h]
  exact local_writeMetadata ok _ f g h

theorem local_otaApply (slot : Slot) (ok : Nat → Bool) (ota : OtaState) :
    Local Flash.image otaRegion (onFlash ota (otaApply slot ok)) := by
  intro f g h
  unfold onFlash otaApply
  dsimp only
  split
  · exact ⟨rfl, h⟩
  · obtain ⟨f', g', r, hf, hg, hmem⟩ :=
      (local_updateMetadata slot ok (applyMutator ota.status)).both h
    rw [hf, hg]
    cases r <;> exact ⟨rfl, hmem⟩

theorem local_otaConfirm (slot : Slot) (ok : Nat → Bool) (ota : OtaState) :
    Local Flash.image otaRegion (onFlash ota fun s => (otaConfirm slot ok s, ())) := by
  intro f g h
  unfold onFlash otaConfirm
  dsimp only
  split
  · exact ⟨rfl, h⟩
  · obtain ⟨f', g', r, hf, hg, hmem⟩ := (local_updateMetadata slot ok confirmMutator).both h
    rw [hf, hg]
    cases r <;> exact ⟨rfl, hmem⟩

/-! ## A transfer -/

theorem local_eraseSectors (ok : Nat → Bool) (base n k : Nat) :
    Local Flash.image R (eraseSectors ok base n k) := by
  induction n generalizing k with
  | zero => exact local_pure true
  | succ n ih => exact local_andThen (local_eraseRange _ _ _) (ih (k + 1))

/-- The page loop, on two flashes. -/
theorem writePages_agree (ok : Nat → Bool) (base k : Nat) (s : Pages)
    (data : List UInt8) {g : Flash} (h : Set.EqOn s.flash.image g.image R) :
    Set.EqOn (writePages ok base k s data).1.flash.image
      (writePages ok base k { s with flash := g } data).1.flash.image R ∧
    (writePages ok base k s data).1.page =
      (writePages ok base k { s with flash := g } data).1.page ∧
    (writePages ok base k s data).1.nextPageOff
      = (writePages ok base k { s with flash := g } data).1.nextPageOff ∧
    (writePages ok base k s data).2 = (writePages ok base k { s with flash := g } data).2 := by
  induction k, s, data using writePages.induct ok base generalizing g with
  | case1 k s =>
    rw [writePages_nil, writePages_nil]
    exact ⟨h, rfl, rfl, rfl⟩
  | case2 k s data hne hfull flash hprog =>
    have hok := (programPage_eq_false hprog).1
    rw [writePages_fail hok base hne hfull, writePages_fail (s := { s with flash := g })
      hok base hne hfull]
    exact ⟨h, rfl, rfl, rfl⟩
  | case3 k s data hne hfull flash hprog ih =>
    obtain ⟨hok, rfl⟩ := programPage_eq_true hprog
    rw [writePages_full hok base hne hfull, writePages_full (s := { s with flash := g })
      hok base hne hfull]
    exact ih (local_programPage true (base + s.nextPageOff) (s.page.fill data).bytes s.flash g h).2
  | case4 k s data hne hshort =>
    rw [writePages_short ok base k hne hshort, writePages_short (s := { s with flash := g }) ok
      base k hne hshort]
    exact ⟨h, rfl, rfl, rfl⟩

theorem local_otaBegin (ok : Nat → Bool) (n : Nat) (ota : OtaState) :
    Local Flash.image R (onFlash ota (otaBegin ok n)) := by
  intro f g h
  unfold onFlash otaBegin
  dsimp only
  split
  · exact ⟨rfl, h⟩
  · split
    · exact ⟨rfl, h⟩
    · obtain ⟨f', g', r, hf, hg, hmem⟩ :=
        (local_eraseSectors ok ota.status.stagingSlot.offset otaSlotSectors 0).both h
      rw [hf, hg]
      cases r <;> exact ⟨rfl, hmem⟩

theorem local_otaWrite (ok : Nat → Bool) (offset : Nat) (data : Option (List UInt8))
    (ota : OtaState) :
    Local Flash.image R (onFlash ota (otaWrite ok offset data)) := by
  intro f g h
  cases data with
  | none =>
    unfold onFlash otaWrite
    dsimp only
    split <;> exact ⟨rfl, h⟩
  | some data =>
    by_cases hacc : ota.status.Accepts offset data
    · unfold onFlash
      rw [otaWrite_accepted (s := ⟨f, ota⟩) hacc, otaWrite_accepted (s := ⟨g, ota⟩) hacc]
      obtain ⟨hmem, hpage, hoff, hr⟩ := writePages_agree ok ota.status.stagingSlot.offset 0
        ⟨f, ota.page, ota.nextPageOff⟩ data h
      refine ⟨?_, hmem⟩
      unfold App.wrote
      dsimp only
      rw [hpage, hoff, hr]
    · -- the checks do not look at the flash
      unfold onFlash otaWrite
      dsimp only
      split
      · exact ⟨rfl, h⟩
      · next hup =>
        split
        · exact ⟨rfl, h⟩
        · next hlen =>
          split
          · exact ⟨rfl, h⟩
          · next hoff =>
            split
            · exact ⟨rfl, h⟩
            · next hlim =>
              refine absurd ⟨not_not.mp hup, ?_, not_not.mp hoff, Nat.le_of_not_lt hlim⟩ hacc
              rintro rfl
              exact hlen rfl

/-- The last page, on two flashes. -/
theorem flushPage_agree (ok : Bool) (base : Nat) (s : Pages) {g : Flash}
    (h : Set.EqOn s.flash.image g.image R) :
    ∃ f' g' page off r, flushPage ok base s = (⟨f', page, off⟩, r) ∧
      flushPage ok base { s with flash := g } = (⟨g', page, off⟩, r) ∧
      Set.EqOn f'.image g'.image R := by
  unfold flushPage
  dsimp only
  split
  · cases ok with
    | false => exact ⟨_, _, _, _, _, rfl, rfl, h⟩
    | true => exact ⟨_, _, _, _, _, rfl, rfl, (local_programPage true _ _ s.flash g h).2⟩
  · exact ⟨_, _, _, _, _, rfl, rfl, h⟩

theorem local_otaFinalize (ok : Nat → Bool) (ota : OtaState) :
    Local Flash.image R (onFlash ota (otaFinalize ok)) := by
  intro f g h
  obtain ⟨f', g', page, off, r, hf, hg, hmem⟩ :=
    flushPage_agree (ok 0) ota.status.stagingSlot.offset
    ⟨f, ota.page, ota.nextPageOff⟩ h
  unfold onFlash otaFinalize
  dsimp only at hg ⊢
  rw [hf, hg]
  split
  · exact ⟨rfl, h⟩
  · cases r <;> exact ⟨rfl, hmem⟩

theorem local_otaAbort (ota : OtaState) : Local Flash.image R (onFlash ota otaAbort) := by
  intro f g h
  unfold onFlash otaAbort
  dsimp only
  split <;> exact ⟨rfl, h⟩

theorem local_call (c : Call) (ota : OtaState) : Local Flash.image R (onFlash ota c.run) := by
  cases c with
  | begin n ok => exact local_otaBegin ok n ota
  | write offset data ok => exact local_otaWrite ok offset _ ota
  | finalize ok => exact local_otaFinalize ok ota
  | abort => exact local_otaAbort ota

/-! ## Boards -/

/-- Two boards that differ in what is stored elsewhere, and in how it came about. -/
structure Alike (b c : Board) : Prop where
  cpu : c.cpu = b.cpu
  image : Set.EqOn b.flash.image c.flash.image otaRegion

theorem Alike.refl (b : Board) : Alike b b := ⟨rfl, fun _ _ => rfl⟩

/-- What happens to one board can happen to the other, and keeps them alike. -/
theorem Alike.step {b b' c : Board} {e : Event} (h : Alike b c) (hs : c.step e = some b') :
    ∃ a, b.step e = some a ∧ Alike a b' := by
  obtain ⟨f, cpu⟩ := b
  obtain ⟨g, cpu'⟩ := c
  obtain ⟨rfl, himage⟩ := h
  rcases Board.step_cases hs with ⟨rfl, rfl⟩ | ⟨power, rfl, hc, rfl⟩ | ⟨ok, slot, rfl, hc, rfl⟩ |
    ⟨call, slot, ota, rfl, hc, rfl⟩ | ⟨ok, slot, ota, a, r, rfl, hc, ha, rfl⟩ |
    ⟨ok, slot, ota, a, rfl, hc, ha, rfl⟩ | ⟨ok, slot, ota, rfl, hc, rfl⟩
  · exact ⟨_, rfl, rfl, himage⟩
  · obtain rfl : cpu' = .bootloader := hc
    obtain ⟨hr, hmem⟩ := local_main power f g himage
    exact ⟨_, rfl, congrArg Cpu.afterBoot hr.symm, hmem⟩
  · obtain rfl : cpu' = .started slot := hc
    obtain ⟨hr, hmem⟩ := local_otaInit slot ok OtaState.zero f g himage
    exact ⟨_, rfl, congrArg (fun r => Cpu.app slot r.1) hr.symm, hmem⟩
  · obtain rfl : cpu' = .app slot ota := hc
    obtain ⟨hr, hmem⟩ := local_call call ota f g himage
    exact ⟨_, rfl, congrArg (fun r => Cpu.app slot r.1) hr.symm, hmem⟩
  · obtain rfl : cpu' = .app slot ota := hc
    obtain ⟨hr, hmem⟩ := local_otaApply slot ok ota f g himage
    unfold onFlash at hr hmem
    rw [ha] at hr hmem
    rcases hf : otaApply slot ok ⟨f, ota⟩ with ⟨a', r'⟩
    rw [hf] at hr hmem
    obtain ⟨hota, rfl⟩ := Prod.mk.inj hr
    refine ⟨⟨a'.flash, .app slot a'.ota⟩, ?_, congrArg (Cpu.app slot) hota.symm, hmem⟩
    simp only [Board.step, hf]
  · obtain rfl : cpu' = .app slot ota := hc
    obtain ⟨hr, hmem⟩ := local_otaApply slot ok ota f g himage
    unfold onFlash at hr hmem
    rw [ha] at hr hmem
    rcases hf : otaApply slot ok ⟨f, ota⟩ with ⟨a', r'⟩
    rw [hf] at hr hmem
    obtain ⟨-, rfl⟩ := Prod.mk.inj hr
    refine ⟨⟨a'.flash, .bootloader⟩, ?_, rfl, hmem⟩
    simp only [Board.step, hf]
  · obtain rfl : cpu' = .app slot ota := hc
    obtain ⟨hr, hmem⟩ := local_otaConfirm slot ok ota f g himage
    exact ⟨_, rfl, congrArg (fun r => Cpu.app slot r.1) hr.symm, hmem⟩

/-! ## What a board writes to -/

/-- The application knows which slot is not its own, and what it has staged there. -/
def Board.Knows (b : Board) : Prop :=
  ∀ slot ota, b.cpu = .app slot ota → ota.status.stagingSlot = slot.other ∧ Tracked ⟨b.flash, ota⟩

theorem Footed.knows {b : Board} (h : Footed b) : b.Knows :=
  fun slot ota hc => ⟨(h.app slot ota hc).other, (h.app slot ota hc).tracked⟩

/-- What is stored elsewhere does not matter to a transfer. -/
theorem Alike.knows {b c : Board} (h : Alike b c) (hb : b.Knows) : c.Knows := by
  intro slot ota hc
  obtain ⟨hother, ht⟩ := hb slot ota (h.cpu.symm.trans hc)
  refine ⟨hother, ?_⟩
  exact @Tracked.update ⟨b.flash, ota⟩ ht c.flash ota.status.pendingVerify ota.status.bootAttempts
    fun i hi => (slot_agree h.image ota.status.stagingSlot hi).symm

/-- No event of a board writes to what is protected, whatever else has been written. -/
theorem Board.Knows.step_protected {b b' : Board} {e : Event} (h : b.Knows)
    (hs : b.step e = some b') {a : Nat} (ha : Protected b.cpu a) :
    b'.flash.image a = b.flash.image a := by
  rcases Board.step_cases hs with ⟨-, rfl⟩ | ⟨power, -, hc, rfl⟩ | ⟨ok, slot, -, hc, rfl⟩ |
    ⟨c, slot, ota, -, hc, rfl⟩ | ⟨ok, slot, ota, s, r, -, hc, hap, rfl⟩ |
    ⟨ok, slot, ota, s, -, hc, hap, rfl⟩ | ⟨ok, slot, ota, -, hc, rfl⟩
  · rfl
  · exact (performs_main power b.flash).sameOutside a ha.1
  · exact (performs_otaInit slot ok ⟨b.flash, OtaState.zero⟩).sameOutside a ha.1
  · obtain ⟨hother, ht⟩ := h slot ota hc
    refine run_sameOutside ht c a ?_
    rw [App.base, hother]
    exact ha.2 slot ota hc
  · have hperf := performs_otaApply slot ok ⟨b.flash, ota⟩
    rw [hap] at hperf
    exact hperf.sameOutside a ha.1
  · have hperf := performs_otaApply slot ok ⟨b.flash, ota⟩
    rw [hap] at hperf
    exact hperf.sameOutside a ha.1
  · exact (performs_otaConfirm slot ok ⟨b.flash, ota⟩).sameOutside a ha.1

end PicoBLE.Ota
