import PicoBLE.Ota.Probation
import PicoBLE.Ota.Rollback

/-!
# Boot selection

From any readable record that names a slot, the bootloader finds a slot to
enter if there is one. The branch to look at is the rollback: it turns the
record around without a look at the slot it turns to, and reboots. The run
after it is off probation, so it cannot roll back again, and its own fallback
mends a bad choice.
-/

namespace PicoBLE.Ota

open NorFlash
open PicoBLE.Bootloader

/-- How a run of the bootloader may end, on slots as in `f`: it has entered a
slot that looks valid, under a record that names it, or there was none to enter. -/
inductive Selected (f : Image) : Flash × Boot → Prop where
  | entered {f' : Flash} {t : Slot} {m : OtaMetadata} :
    slotLooksValid t f = true → SameSlots f f'.image →
    readMetadata f'.image = some m → m.activeSlot = t.byte → Selected f (f', .jumped t)
  | bootsel {f' : Flash} : (∀ t, slotLooksValid t f = false) → Selected f (f', .bootsel)

theorem Selected.congr {f g : Image} {r : Flash × Boot} (h : Selected g r) (hs : SameSlots f g) :
    Selected f r := by
  cases h with
  | entered hv hsame hr ha =>
    exact .entered ((hs.slot _).valid_eq.symm.trans hv) (hs.trans hsame) hr ha
  | bootsel h => exact .bootsel fun t => (hs.slot t).valid_eq.symm.trans (h t)

/-- A run that has got as far as entering the active slot. -/
theorem selected_enterActive {f : Flash} {m : OtaMetadata} {t : Slot}
    (hr : readMetadata f.image = some m) (ha : m.activeSlot = t.byte) :
    Selected f.image (enterActive allOk m f) := by
  have ht : Slot.ofByte m.activeSlot = t := by rw [ha, Slot.ofByte_byte]
  cases hv : slotLooksValid t f.image with
  | true =>
    rw [enterActive_valid ht hv]
    exact .entered hv (SameOutside.refl _ _ _) hr ha
  | false =>
    cases ho : slotLooksValid t.other f.image with
    | false =>
      rw [enterActive_none ht hv ho]
      refine .bootsel fun u => ?_
      rcases Slot.eq_or_other t u with rfl | rfl
      · exact hv
      · exact ho
    | true =>
      -- the fallback: the jump sees the slot that the check has just seen
      obtain ⟨f', he, hr', hs⟩ := enterActive_fallback allOk hr ht hv ho rfl rfl
      rw [he]
      exact .entered ho hs hr' (flipped_active ha)

/-- One run selects, or rolls back to a record that is off probation. -/
theorem selected_main {f : Flash} {m : OtaMetadata} {t : Slot}
    (hr : readMetadata f.image = some m) (ha : m.activeSlot = t.byte) :
    Selected f.image (main allOk f) ∨
    m.pendingVerify ≠ 0 ∧ ∃ f' m', main allOk f = (f', .rebooted) ∧ SameSlots f.image f'.image ∧
      readMetadata f'.image = some m' ∧ m'.activeSlot = t.other.byte ∧ m'.pendingVerify = 0 := by
  by_cases hp : m.pendingVerify = 0
  · rw [main_settled hr hp]
    exact .inl (selected_enterActive hr ha)
  · by_cases hn : otaMaxBootAttempts ≤ m.bootAttempts
    · obtain ⟨f', he, hr', hs⟩ := boot_rollback hr hp hn
      exact .inr ⟨hp, f', flipped m, he, hs, hr', flipped_active ha, rfl⟩
    · obtain ⟨f', he, hr', hs⟩ := main_counted hr hp hn
      rw [he]
      have hsel : Selected f'.image
          (enterActive allOk { m with bootAttempts := m.bootAttempts + 1 } f') :=
        selected_enterActive (t := t) hr' ha
      exact .inl (hsel.congr hs)

/-- A run of the bootloader, and another one if it ends in a reboot. -/
def bootTwice (f : Flash) : Flash × Boot :=
  match main allOk f with
  | (f', .rebooted) => main allOk f'
  | r => r

/-- **Two runs select a slot.** -/
theorem selected_bootTwice {f : Flash} {m : OtaMetadata} {t : Slot}
    (hr : readMetadata f.image = some m) (ha : m.activeSlot = t.byte) :
    Selected f.image (bootTwice f) := by
  unfold bootTwice
  rcases selected_main hr ha with hsel | ⟨-, f', m', he, hs, hr', ha', hp'⟩
  · revert hsel
    generalize main allOk f = r
    intro hsel
    cases hsel with
    | entered hv hsame hr' ha' => exact .entered hv hsame hr' ha'
    | bootsel h => exact .bootsel h
  · rw [he]
    rcases selected_main hr' ha' with hsel | ⟨hp, -⟩
    · exact hsel.congr hs
    · exact absurd hp' hp

/-- **Boot selection is sound and makes progress.** With a readable record that
names a slot, two runs of the bootloader at most enter a slot that looks valid
if either does, under a record that names the slot; BOOTSEL is entered only
when neither does, and never by the checks of `jump_to_slot` on a slot that
`slot_looks_valid` has accepted. -/
theorem selection_sound {f : Flash} {m : OtaMetadata} (hr : readMetadata f.image = some m)
    (ha : m.activeSlot = 0 ∨ m.activeSlot = 1) :
    ((∃ t, slotLooksValid t f.image = true) → ∃ f' t m', bootTwice f = (f', .jumped t) ∧
      slotLooksValid t f'.image = true ∧ readMetadata f'.image = some m' ∧
      m'.activeSlot = t.byte) ∧
    ((bootTwice f).2 = .bootsel ↔ ∀ t, slotLooksValid t f.image = false) ∧
    ((main allOk f).2 = .bootsel → ∀ t, slotLooksValid t f.image = false) ∧
    (∀ t g, slotLooksValid t g = true → jumpToSlot t g = .jumped t) := by
  obtain ⟨t, ht⟩ : ∃ t : Slot, m.activeSlot = t.byte := by
    rcases ha with ha | ha
    · exact ⟨.a, ha⟩
    · exact ⟨.b, ha⟩
  refine ⟨?_, ?_, ?_, fun u g => jumpToSlot_valid⟩
  · rintro ⟨u, hu⟩
    generalize hb : bootTwice f = r
    have hsel := selected_bootTwice hr ht
    rw [hb] at hsel
    cases hsel with
    | entered hv hs hr' ha' =>
      exact ⟨_, _, _, rfl, hs.valid hv, hr', ha'⟩
    | bootsel hnone => exact absurd ((hnone u).symm.trans hu) Bool.false_ne_true
  · have hsel := selected_bootTwice hr ht
    generalize bootTwice f = r at hsel
    constructor
    · intro hboot
      cases hsel with
      | entered _ _ _ _ => exact absurd hboot (by simp)
      | bootsel hnone => exact hnone
    · intro hnone
      cases hsel with
      | entered hv _ _ _ => exact absurd ((hnone _).symm.trans hv) Bool.false_ne_true
      | bootsel _ => rfl
  · intro hboot
    rcases selected_main hr ht with hsel | ⟨-, f', m', he, -⟩
    · generalize main allOk f = r at hsel hboot
      cases hsel with
      | entered _ _ _ _ => exact absurd hboot (by simp)
      | bootsel hnone => exact hnone
    · rw [he] at hboot
      exact absurd hboot (by simp)

/-- On a board that has just applied an image, that image is selected. -/
theorem appliedBoard_selection : ∃ f' t m', bootTwice appliedBoard.flash = (f', .jumped t) ∧
    slotLooksValid t f'.image = true ∧ readMetadata f'.image = some m' ∧
    m'.activeSlot = t.byte := by
  obtain ⟨m, hr, ha, -⟩ := appliedBoard_applied.record
  exact (selection_sound hr (.inr ha)).1 ⟨.b, appliedBoard_applied.valid .b⟩

end PicoBLE.Ota
