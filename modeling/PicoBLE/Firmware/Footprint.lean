import PicoBLE.Firmware.Components

/-!
# What the device writes to

Each event has a part of the flash that it may change: a call of `ota.c` the
staging slot and the record, a shell the slot of the script it saves or
removes, and the other stores a sector each. The bootloader, the two gaps
between the stores and the slot of the running application are in none of them.
-/

namespace PicoBLE.Firmware

open NorFlash
open PicoBLE.Ota (Cpu Slot OtaState SameSlot Protected flashSectorSize otaSlotAOffset otaSlotSize
  otaMetadataOffset slot_metadata slot_other)
open PicoBLE.Cli (Machine)
open PicoBLE.System (bindStorageOffset)
open PicoBLE.Storage

/-- A sector. -/
def sectorAt (off : Nat) : Set Nat := {a | off ≤ a ∧ a < off + flashSectorSize}

/-- The bytes that an event may change. -/
def Device.footprint (d : Device) : Event → Set Nat
  | .board _ => {a | ¬ Protected d.cpu a}
  | .shell e => {a | ∃ slot, d.m.erases e = some slot ∧ a ∈ sectorAt slot.offset}
  | .saveBindings _ => sectorAt bindStorageOffset
  | .saveWifi _ _ => sectorAt configSectorOffset
  | .clearWifi _ => sectorAt configSectorOffset
  | .table _ => ∅
  | .dispatch _ => ∅
  | .loadBindings => ∅

/-- What is no component's: the bootloader, the gaps, and what is behind the chip. -/
def Unowned (a : Nat) : Prop :=
  a < otaSlotAOffset ∨
  (scriptStorageOffset + scriptSlotCount * scriptSlotSize ≤ a ∧ a < bindStorageOffset) ∨
  (bindStorageOffset + flashSectorSize ≤ a ∧ a < configSectorOffset) ∨
  picoFlashSizeBytes ≤ a

/-! ## One step -/

theorem sameOutside_sector {off : Nat} {f g : Image} (h : SameOutside off flashSectorSize f g)
    {a : Nat} (ha : a ∉ sectorAt off) : g a = f a := by
  refine h a ?_
  by_contra hin
  obtain ⟨hlow, hhigh⟩ := not_or.mp hin
  exact ha ⟨Nat.le_of_not_lt hlow, Nat.lt_of_not_le hhigh⟩

/-- A shell leaves every slot but the one it erases. -/
theorem shell_footprint {m m' : Machine} {e : Cli.Event} (he : ofShells e = true)
    (hm : m.step e = some m') {a : Nat} (ha : ∀ slot, m.erases e = some slot →
      a ∉ sectorAt slot.offset) : m'.fw.flash.image a = m.fw.flash.image a := by
  rcases shell_flash he hm with ⟨c, hc, hflash⟩ | ⟨-, hflash⟩
  · have hframe := c.run_frame m.fw.flash
    have herases : m.erases e = c.erases m.fw.flash.image := by
      rw [Machine.erases, hc, Option.bind_some]
    rw [hflash]
    split at hframe
    · next slot hslot => exact sameOutside_sector hframe (ha slot (herases.trans hslot))
    · rw [hframe]
  · rw [hflash]

/-- **A step changes nothing outside its footprint.** -/
theorem Joined.footprint {d d' : Device} {e : Event} (h : Joined d) (hs : Stepped d e d') {a : Nat}
    (ha : a ∉ d.footprint e) : d'.flash.image a = d.flash.image a := by
  cases hs with
  | @board e b hadm hb =>
    have hflash : (d.afterBoard b e).flash = b.flash :=
      congrArg Ota.Board.flash (board_afterBoard d b e)
    rw [hflash]
    exact h.knows.step_protected hb (not_not.mp ha)
  | shell _ hown hm => exact shell_footprint hown hm fun slot hslot hin => ha ⟨slot, hslot, hin⟩
  | table => exact Eq.refl (d.m.fw.flash.image a)
  | visit => exact Eq.refl (d.m.fw.flash.image a)
  | fire _ _ hm => exact congrArg (fun f : Ota.Flash => f.image a) (fire_flash hm)
  | loadBindings => exact Eq.refl (d.m.fw.flash.image a)
  | saveBindings => exact sameOutside_sector (bindingsSave_sameOutside _ _ _) ha
  | saveWifi => exact sameOutside_sector (configSaveWifi_sameOutside _ _ _) ha
  | clearWifi => exact sameOutside_sector (configClearWifi_sameOutside _ _) ha

/-! ## What is in no footprint -/

/-- The board leaves what is in front of its slots. -/
theorem protected_front (cpu : Cpu) {a : Nat} (ha : a < otaSlotAOffset) : Protected cpu a := by
  have hmeta : otaSlotAOffset ≤ otaMetadataOffset := by decide
  refine ⟨.inl (by omega), fun slot _ _ => .inl ?_⟩
  have hstart : otaSlotAOffset ≤ slot.other.offset := by
    cases slot
    · exact Nat.le_add_right _ _
    · exact Nat.le_refl _
  omega

/-- And a slot, unless the application in the other one runs. -/
theorem protected_slot {cpu : Cpu} {slot : Slot} (hcpu : ∀ ota, cpu ≠ .app slot.other ota) {i : Nat}
    (hi : i < otaSlotSize) : Protected cpu (slot.offset + i) := by
  have hmeta := slot_metadata slot
  refine ⟨.inl (by omega), fun s ota hc => ?_⟩
  rcases Slot.eq_or_other s slot with rfl | rfl
  · rcases slot_other slot with hd | hd
    · exact .inl (by omega)
    · exact .inr (by omega)
  · rw [Slot.other_other] at hcpu
    exact absurd hc (hcpu ota)

theorem scriptSlot_sector {slot : ScriptSlot} {a : Nat} (ha : a ∈ sectorAt slot.offset) :
    scriptStorageOffset ≤ a ∧ a < scriptStorageOffset + scriptSlotCount * scriptSlotSize := by
  have hslot : slot.1 < 16 := slot.2
  have hin : scriptStorageOffset + slot.1 * scriptSlotSize ≤ a ∧
    a < scriptStorageOffset + slot.1 * scriptSlotSize + flashSectorSize := ha
  simp only [scriptSlotSize, scriptSlotCount, flashSectorSize] at hin ⊢
  omega

/-- The stores come one behind the other. -/
theorem stores_ordered : otaSlotAOffset ≤ scriptStorageOffset ∧
    scriptStorageOffset + scriptSlotCount * scriptSlotSize ≤ bindStorageOffset ∧
    bindStorageOffset + flashSectorSize ≤ configSectorOffset ∧
    configSectorOffset + flashSectorSize = picoFlashSizeBytes := by decide

theorem footprint_unowned {a : Nat} (ha : Unowned a) (d : Device) (e : Event) :
    a ∉ d.footprint e := by
  obtain ⟨hscripts, hbind, hconfig, hend⟩ := stores_ordered
  have hsector : flashSectorSize = 4096 := rfl
  unfold Unowned at ha
  intro hin
  cases e with
  | board e =>
    refine hin ?_
    by_cases hfront : a < otaSlotAOffset
    · exact protected_front d.cpu hfront
    · exact protected_behind d.cpu (by omega)
  | shell e =>
    obtain ⟨slot, -, hslot⟩ := hin
    have hwhere := scriptSlot_sector hslot
    omega
  | saveBindings ok =>
    have hwhere : bindStorageOffset ≤ a ∧ a < bindStorageOffset + flashSectorSize := hin
    omega
  | saveWifi ok creds =>
    have hwhere : configSectorOffset ≤ a ∧ a < configSectorOffset + flashSectorSize := hin
    omega
  | clearWifi ok =>
    have hwhere : configSectorOffset ≤ a ∧ a < configSectorOffset + flashSectorSize := hin
    omega
  | table a => exact hin
  | dispatch i => exact hin
  | loadBindings => exact hin

theorem footprint_slot {d : Device} {slot : Slot} (hcpu : ∀ ota, d.cpu ≠ .app slot.other ota)
    (e : Event) {i : Nat} (hi : i < otaSlotSize) : slot.offset + i ∉ d.footprint e := by
  obtain ⟨-, hbind, hconfig, -⟩ := stores_ordered
  have hfront : otaMetadataOffset ≤ scriptStorageOffset := by decide
  have hend := slot_metadata slot
  intro hin
  cases e with
  | board e => exact hin (protected_slot hcpu hi)
  | shell e =>
    obtain ⟨script, -, hscript⟩ := hin
    have hwhere := scriptSlot_sector hscript
    omega
  | saveBindings ok =>
    have hwhere := hin.1
    omega
  | saveWifi ok creds =>
    have hwhere := hin.1
    omega
  | clearWifi ok =>
    have hwhere := hin.1
    omega
  | table a => exact hin
  | dispatch i => exact hin
  | loadBindings => exact hin

/-! ## Runs -/

/-- A byte that is in no footprint of a run is kept. -/
theorem run_kept {d d' : Device} {es : List Event} {a : Nat} {ok : Device → Event → Prop}
    (hout : ∀ d e, ok d e → a ∉ d.footprint e) (hr : devices.Runs ok d es d') (h : Joined d) :
    d'.flash.image a = d.flash.image a := by
  induction hr with
  | nil => rfl
  | cons hok hs _ ih =>
    have hstep := Device.step_cases hs
    exact (ih (h.step hstep)).trans (h.footprint hstep (hout _ _ hok))

/-- **What the device writes to.** From every state it can reach, an event changes bytes of its own
footprint only. No run changes the bootloader, or what lies between the stores. And as long as the
application in one slot does not run, the other slot keeps its contents: what runs is not
overwritten. -/
theorem device_footprint {d : Device} (h : devices.Reachable d) :
    (∀ e d', d.step e = some d' → ∀ a, d'.flash.image a ≠ d.flash.image a → a ∈ d.footprint e) ∧
    (∀ es d', devices.Runs (fun _ _ => True) d es d' → ∀ a, Unowned a →
      d'.flash.image a = d.flash.image a) ∧
    ∀ (slot : Slot) es d', devices.Runs (fun d _ => ∀ ota, d.cpu ≠ .app slot.other ota) d es d' →
      SameSlot slot d.flash.image d'.flash.image := by
  have hj := joined_reachable h
  refine ⟨fun e d' hs a hne => ?_, fun es d' hr a ha => ?_, fun slot es d' hr i hi => ?_⟩
  · by_contra hout
    exact hne (hj.footprint (Device.step_cases hs) hout)
  · exact run_kept (fun d e _ => footprint_unowned ha d e) hr hj
  · exact run_kept (fun d e hcpu => footprint_slot hcpu e hi) hr hj

/-- The application that has just been applied in slot B is not overwritten before slot A runs
again. -/
theorem appliedDevice_footprint : ∃ (d : Device) (ota : OtaState), d.cpu = .app .b ota ∧
    (∀ es d', devices.Runs (fun _ _ => True) d es d' → ∀ a, Unowned a →
      d'.flash.image a = d.flash.image a) ∧
    ∀ es d', devices.Runs (fun d _ => ∀ ota, d.cpu ≠ .app Slot.b.other ota) d es d' →
      SameSlot .b d.flash.image d'.flash.image := by
  obtain ⟨d, ota, hd, hcpu, -⟩ := appliedDevice_up
  obtain ⟨-, hunowned, hslot⟩ := device_footprint hd
  exact ⟨d, ota, hcpu, hunowned, hslot .b⟩

end PicoBLE.Firmware
