import PicoBLE.Lib.LTS
import PicoBLE.Ota.Bootloader
import PicoBLE.Ota.Transfer

/-!
# The board: bootloader and application on one flash

The two programs take turns on the processor and share nothing but the flash.
A reset can come at any moment and hands the processor to the bootloader; an
operation that a reset cuts short is one whose later flash operations do not
happen. The image in a slot is an application built for that slot.

Only `read_metadata` of the metadata sector, the vector tables and the slots'
contents matter to the results about the board, so this file also has what
each kind of flash operation does to those three.
-/

namespace PicoBLE.Ota

open NorFlash
open PicoBLE.Bootloader

/-! ## The board -/

/-- Who has the processor. -/
inductive Cpu where
  | bootloader
  /-- The bootloader has entered the slot, `ota_init` has not run. -/
  | started (slot : Slot)
  /-- The application of a slot, with its variables. -/
  | app (slot : Slot) (ota : OtaState)
  | bootsel

structure Board where
  flash : Flash
  cpu : Cpu

inductive Event where
  | reset
  | boot (power : Nat → Bool)
  | init (ok : Nat → Bool)
  | call (c : Call)
  | apply (ok : Nat → Bool)
  | confirm (ok : Nat → Bool)

/-- Where a bootloader run leaves the processor. -/
def Cpu.afterBoot : Boot → Cpu
  | .jumped slot => .started slot
  | .bootsel => .bootsel
  | .rebooted => .bootloader
  | .powerLost => .bootloader

/-- One event, where it can happen. -/
def Board.step (b : Board) (e : Event) : Option Board :=
  match e, b.cpu with
  | .reset, _ => some { b with cpu := .bootloader }
  | .boot power, .bootloader =>
    some ⟨(main power b.flash).1, .afterBoot (main power b.flash).2⟩
  | .init ok, .started slot =>
    let a := otaInit slot ok ⟨b.flash, OtaState.zero⟩
    some ⟨a.flash, .app slot a.ota⟩
  | .call c, .app slot ota =>
    let a := (c.run ⟨b.flash, ota⟩).1
    some ⟨a.flash, .app slot a.ota⟩
  | .apply ok, .app slot ota =>
    match otaApply slot ok ⟨b.flash, ota⟩ with
    | (a, .returned _) => some ⟨a.flash, .app slot a.ota⟩
    | (a, .rebooted) => some ⟨a.flash, .bootloader⟩
  | .confirm ok, .app slot ota =>
    let a := otaConfirm slot ok ⟨b.flash, ota⟩
    some ⟨a.flash, .app slot a.ota⟩
  | _, _ => none

/-- **What an event can do to the board.** -/
theorem Board.step_cases {b b' : Board} {e : Event} (h : b.step e = some b') :
    (e = .reset ∧ b' = ⟨b.flash, .bootloader⟩) ∨
    (∃ power, e = .boot power ∧ b.cpu = .bootloader ∧
      b' = ⟨(main power b.flash).1, .afterBoot (main power b.flash).2⟩) ∨
    (∃ ok slot, e = .init ok ∧ b.cpu = .started slot ∧
      b' = ⟨(otaInit slot ok ⟨b.flash, OtaState.zero⟩).flash,
        .app slot (otaInit slot ok ⟨b.flash, OtaState.zero⟩).ota⟩) ∨
    (∃ c slot ota, e = .call c ∧ b.cpu = .app slot ota ∧
      b' = ⟨(c.run ⟨b.flash, ota⟩).1.flash, .app slot (c.run ⟨b.flash, ota⟩).1.ota⟩) ∨
    (∃ ok slot ota a r, e = .apply ok ∧ b.cpu = .app slot ota ∧
      otaApply slot ok ⟨b.flash, ota⟩ = (a, .returned r) ∧ b' = ⟨a.flash, .app slot a.ota⟩) ∨
    (∃ ok slot ota a, e = .apply ok ∧ b.cpu = .app slot ota ∧
      otaApply slot ok ⟨b.flash, ota⟩ = (a, .rebooted) ∧ b' = ⟨a.flash, .bootloader⟩) ∨
    (∃ ok slot ota, e = .confirm ok ∧ b.cpu = .app slot ota ∧
      b' = ⟨(otaConfirm slot ok ⟨b.flash, ota⟩).flash,
        .app slot (otaConfirm slot ok ⟨b.flash, ota⟩).ota⟩) := by
  obtain ⟨f, cpu⟩ := b
  cases e with
  | reset => exact .inl ⟨rfl, (Option.some.inj h).symm⟩
  | boot power =>
    cases cpu with
    | bootloader => exact .inr (.inl ⟨power, rfl, rfl, (Option.some.inj h).symm⟩)
    | started _ | app _ _ | bootsel => exact absurd h (by simp [Board.step])
  | init ok =>
    cases cpu with
    | started slot => exact .inr (.inr (.inl ⟨ok, slot, rfl, rfl, (Option.some.inj h).symm⟩))
    | bootloader | app _ _ | bootsel => exact absurd h (by simp [Board.step])
  | call c =>
    cases cpu with
    | app slot ota =>
      exact .inr (.inr (.inr (.inl ⟨c, slot, ota, rfl, rfl, (Option.some.inj h).symm⟩)))
    | bootloader | started _ | bootsel => exact absurd h (by simp [Board.step])
  | apply ok =>
    cases cpu with
    | app slot ota =>
      refine .inr (.inr (.inr (.inr ?_)))
      rcases ha : otaApply slot ok ⟨f, ota⟩ with ⟨a, r | _⟩
      · simp only [Board.step, ha] at h
        exact .inl ⟨ok, slot, ota, a, r, rfl, rfl, ha, (Option.some.inj h).symm⟩
      · simp only [Board.step, ha] at h
        exact .inr (.inl ⟨ok, slot, ota, a, rfl, rfl, ha, (Option.some.inj h).symm⟩)
    | bootloader | started _ | bootsel => exact absurd h (by simp [Board.step])
  | confirm ok =>
    cases cpu with
    | app slot ota =>
      exact .inr
        (.inr (.inr (.inr (.inr (.inr ⟨ok, slot, ota, rfl, rfl, (Option.some.inj h).symm⟩)))))
    | bootloader | started _ | bootsel => exact absurd h (by simp [Board.step])

/-! ## What the results look at -/

/-- The bytes of a slot. -/
@[irreducible]
def content (slot : Slot) (f : Image) : List UInt8 := read slot.offset otaSlotSize f

/-- Two images with the same bytes in a slot. -/
def SameSlot (slot : Slot) (f g : Image) : Prop :=
  ∀ i, i < otaSlotSize → g (slot.offset + i) = f (slot.offset + i)

theorem SameSlot.content_eq {slot : Slot} {f g : Image} (h : SameSlot slot f g) :
    content slot g = content slot f := by
  unfold content; exact read_congr h

theorem SameSlot.trans {slot : Slot} {f g h : Image} (h1 : SameSlot slot f g)
    (h2 : SameSlot slot g h) :
    SameSlot slot f h :=
  fun i hi => (h2 i hi).trans (h1 i hi)

theorem SameSlot.holds {slot : Slot} {f g : Image} {xs : List UInt8} (h : SameSlot slot f g)
    (hf : SlotHolds slot.offset xs f) : SlotHolds slot.offset xs g := by
  unfold SlotHolds at hf ⊢
  rw [read_congr h, hf]

theorem sameSlot_of_content {slot : Slot} {f g : Image} (h : content slot g = content slot f) :
    SameSlot slot f g := by
  unfold content at h
  intro i hi
  have hg : (read slot.offset otaSlotSize g).getD i 0 = g (slot.offset + i) := read_getD hi
  rw [h, read_getD hi] at hg
  exact hg.symm

theorem SameSlot.valid_eq {slot : Slot} {f g : Image} (h : SameSlot slot f g) :
    slotLooksValid slot g = slotLooksValid slot f := by
  refine slotLooksValid_congr fun i hi => ?_
  have hS : otaSlotSize = 786432 := rfl
  rw [Nat.add_assoc]
  exact h (256 + i) (by omega)

/-- Metadata writes leave both slots alone. -/
theorem SameSlots.slot {f g : Image} (h : SameSlots f g) (slot : Slot) : SameSlot slot f g := by
  intro i hi
  refine h _ (.inl ?_)
  cases slot <;> simp only [Slot.offset, otaMetadataOffset, otaSlotBOffset] <;> omega

/-- So a slot looks afterwards as it did before. -/
theorem SameSlots.valid {f g : Image} {slot : Slot} {b : Bool} (h : SameSlots f g)
    (hv : slotLooksValid slot f = b) : slotLooksValid slot g = b :=
  (h.slot slot).valid_eq.trans hv

/-- And is jumped to once it has been accepted. -/
theorem SameSlots.jump {f g : Image} {slot : Slot} (h : SameSlots f g)
    (hv : slotLooksValid slot f = true) : jumpToSlot slot g = .jumped slot :=
  jumpToSlot_valid (h.valid hv)

/-- Operations inside a slot leave the other slot alone. -/
theorem sameSlot_other {slot : Slot} {f g : Image} (h : SameOutside slot.offset otaSlotSize f g) :
    SameSlot slot.other f g := by
  intro i hi
  refine h _ ?_
  cases slot <;> simp only [Slot.offset, Slot.other, otaSlotBOffset] <;> omega

/-- And the record. -/
theorem readMetadata_sameOutside {slot : Slot} {f g : Image}
    (h : SameOutside slot.offset otaSlotSize f g) : readMetadata g = readMetadata f := by
  refine readMetadata_congr fun i hi => h _ ?_
  cases slot <;> simp only [Slot.offset, otaMetadataOffset, otaSlotBOffset] <;> omega

/-! ## The application's metadata updates -/

theorem currentRecord_some {slot : Slot} {f : Image} {m : OtaMetadata}
    (h : readMetadata f = some m) : currentRecord slot f = m := by
  unfold currentRecord; rw [h]

theorem currentRecord_none {slot : Slot} {f : Image} (h : readMetadata f = none) :
    currentRecord slot f = freshRecord slot := by
  unfold currentRecord; rw [h]

theorem currentRecord_magic (slot : Slot) (f : Image) :
    (currentRecord slot f).magic = otaMetaMagic ∧
    (currentRecord slot f).version = otaMetaVersion := by
  cases h : readMetadata f with
  | none => rw [currentRecord_none h]; exact ⟨rfl, rfl⟩
  | some m =>
    rw [currentRecord_some h]
    exact ⟨(readMetadata_magic h).1, (readMetadata_magic h).2.1⟩

/-- An update leaves the old record, none, or the new one. -/
theorem updateMetadata_cases (slot : Slot) (ok : Nat → Bool) (mutator : OtaMetadata → OtaMetadata)
    (f : Flash) (hm : ∀ m, (mutator m).magic = m.magic ∧ (mutator m).version = m.version) :
    (updateMetadata slot ok mutator f = (f, false) ∧ ok 0 = false) ∨
    (∃ f', updateMetadata slot ok mutator f = (f', false) ∧ ok 0 = true ∧ ok 1 = false ∧
      readMetadata f'.image = none ∧ SameSlots f.image f'.image) ∨
    (∃ f', updateMetadata slot ok mutator f = (f', true) ∧ ok 0 = true ∧ ok 1 = true ∧
      readMetadata f'.image = some { mutator (currentRecord slot f.image) with crc32 := 0 } ∧
      SameSlots f.image f'.image) := by
  obtain ⟨hmagic, hversion⟩ := currentRecord_magic slot f.image
  unfold updateMetadata
  rcases writeMetadata_cases ok (mutator (currentRecord slot f.image)) f with
    ⟨h0, he⟩ | ⟨h0, h1, f', he, hn, hs⟩ | ⟨h0, h1, f', he, hr, hs⟩
  · exact .inl ⟨he, h0⟩
  · exact .inr (.inl ⟨f', he, h0, h1, hn, hs⟩)
  · exact .inr (.inr ⟨f', he, h0, h1,
      hr ((hm _).1.trans hmagic) ((hm _).2.trans hversion), hs⟩)

/-- `ota_apply` on a ready image. -/
theorem otaApply_cases (slot : Slot) (ok : Nat → Bool) {s : App}
    (h : s.ota.status.imageReady = true) :
    (otaApply slot ok s = (s, .returned .errIo) ∧ ok 0 = false) ∨
    (∃ f', otaApply slot ok s = ({ s with flash := f' }, .returned .errIo) ∧ ok 0 = true ∧
      ok 1 = false ∧
      readMetadata f'.image = none ∧ SameSlots s.flash.image f'.image) ∨
    (∃ f', otaApply slot ok s = ({ s with flash := f' }, .rebooted) ∧ ok 0 = true ∧ ok 1 = true ∧
      readMetadata f'.image
        = some { applyMutator s.ota.status (currentRecord slot s.flash.image) with crc32 := 0 } ∧
      SameSlots s.flash.image f'.image) := by
  unfold otaApply
  rw [if_neg (not_not.mpr h)]
  rcases updateMetadata_cases slot ok (applyMutator s.ota.status) s.flash (fun _ => ⟨rfl, rfl⟩) with
    ⟨he, h0⟩ | ⟨f', he, h0, h1, hn, hs⟩ | ⟨f', he, h0, h1, hr, hs⟩
  · exact .inl ⟨by rw [he], h0⟩
  · exact .inr (.inl ⟨f', by rw [he], h0, h1, hn, hs⟩)
  · exact .inr (.inr ⟨f', by rw [he], h0, h1, hr, hs⟩)

theorem otaApply_noImage {slot : Slot} {ok : Nat → Bool} {s : App}
    (h : s.ota.status.imageReady = false) : otaApply slot ok s = (s, .returned .errNoImage) := by
  unfold otaApply
  rw [h, if_pos Bool.false_ne_true]

/-- An `ota_apply` that returns has changed nothing, or it has lost the record. -/
theorem otaApply_returned {slot : Slot} {ok : Nat → Bool} {s a : App} {r : OtaResult}
    (h : otaApply slot ok s = (a, .returned r)) :
    ¬ (s.ota.status.imageReady = true ∧ ok 0 = true ∧ ok 1 = true) ∧
    (a = s ∨ s.ota.status.imageReady = true ∧ ∃ f', a = { s with flash := f' } ∧
      readMetadata f'.image = none ∧ SameSlots s.flash.image f'.image) := by
  cases hready : s.ota.status.imageReady with
  | false =>
    rw [otaApply_noImage hready] at h
    exact ⟨fun hall => absurd hall.1 Bool.false_ne_true, .inl (congrArg Prod.fst h).symm⟩
  | true =>
    rcases otaApply_cases slot ok hready with ⟨he, h0⟩ | ⟨f', he, -, h1, hn, hs⟩ | ⟨f', he, -⟩
    · refine ⟨fun hall => absurd (h0.symm.trans hall.2.1) Bool.false_ne_true, .inl ?_⟩
      exact congrArg Prod.fst (h.symm.trans he)
    · refine ⟨fun hall => absurd (h1.symm.trans hall.2.2) Bool.false_ne_true,
        .inr ⟨rfl, f', ?_, hn, hs⟩⟩
      exact congrArg Prod.fst (h.symm.trans he)
    · exact absurd (congrArg Prod.snd (he.symm.trans h)) (by simp)

/-- One that reboots has put the update on record. -/
theorem otaApply_rebooted {slot : Slot} {ok : Nat → Bool} {s a : App}
    (h : otaApply slot ok s = (a, .rebooted)) :
    s.ota.status.imageReady = true ∧ ok 0 = true ∧ ok 1 = true ∧ ∃ f', a = { s with flash := f' } ∧
      readMetadata f'.image
        = some { applyMutator s.ota.status (currentRecord slot s.flash.image) with crc32 := 0 } ∧
      SameSlots s.flash.image f'.image := by
  cases hready : s.ota.status.imageReady with
  | false =>
    rw [otaApply_noImage hready] at h
    exact absurd (congrArg Prod.snd h) (by simp)
  | true =>
    rcases otaApply_cases slot ok hready with ⟨he, -⟩ | ⟨f', he, -⟩ | ⟨f', he, h0, h1, hr, hs⟩
    · exact absurd (congrArg Prod.snd (he.symm.trans h)) (by simp)
    · exact absurd (congrArg Prod.snd (he.symm.trans h)) (by simp)
    · exact ⟨rfl, h0, h1, f', congrArg Prod.fst (h.symm.trans he), hr, hs⟩

/-- There is something to confirm. -/
def OtaStatus.Unconfirmed (st : OtaStatus) : Prop := st.pendingVerify = true ∨ st.bootAttempts ≠ 0

instance (st : OtaStatus) : Decidable st.Unconfirmed :=
  inferInstanceAs (Decidable (st.pendingVerify = true ∨ st.bootAttempts ≠ 0))

/-- The status `ota_confirm` leaves. -/
def OtaStatus.confirmed (st : OtaStatus) : OtaStatus :=
  { st with pendingVerify := false, bootAttempts := 0 }

theorem otaConfirm_nothing {slot : Slot} {ok : Nat → Bool} {s : App}
    (h : ¬ s.ota.status.Unconfirmed) : otaConfirm slot ok s = s := by
  unfold otaConfirm
  obtain ⟨h1, h2⟩ := not_or.mp h
  rw [if_pos ⟨h1, not_not.mp h2⟩]

/-- `ota_confirm` with something to confirm. -/
theorem otaConfirm_cases (slot : Slot) (ok : Nat → Bool) {s : App} (h : s.ota.status.Unconfirmed) :
    (otaConfirm slot ok s = s ∧ ok 0 = false) ∨
    (∃ f', otaConfirm slot ok s = { s with flash := f' } ∧ ok 0 = true ∧ ok 1 = false ∧
      readMetadata f'.image = none ∧ SameSlots s.flash.image f'.image) ∨
    (∃ f', otaConfirm slot ok s
        = { flash := f', ota := { s.ota with status := s.ota.status.confirmed } } ∧
      ok 0 = true ∧ ok 1 = true ∧
      readMetadata f'.image
        = some { confirmMutator (currentRecord slot s.flash.image) with crc32 := 0 } ∧
      SameSlots s.flash.image f'.image) := by
  have hguard : ¬ (¬ s.ota.status.pendingVerify = true ∧ s.ota.status.bootAttempts = 0) := by
    rintro ⟨h1, h2⟩
    exact h.elim h1 (fun h => h h2)
  unfold otaConfirm
  rw [if_neg hguard]
  rcases updateMetadata_cases slot ok confirmMutator s.flash (fun _ => ⟨rfl, rfl⟩) with
    ⟨he, h0⟩ | ⟨f', he, h0, h1, hn, hs⟩ | ⟨f', he, h0, h1, hr, hs⟩
  · exact .inl ⟨by rw [he], h0⟩
  · exact .inr (.inl ⟨f', by rw [he], h0, h1, hn, hs⟩)
  · exact .inr (.inr ⟨f', by rw [he]; rfl, h0, h1, hr, hs⟩)

/-- `ota_init` on a readable record. -/
theorem otaInit_some {slot : Slot} {ok : Nat → Bool} {s : App} {m : OtaMetadata}
    (h : readMetadata s.flash.image = some m) :
    otaInit slot ok s = { s with ota := { s.ota with status := { OtaStatus.zero with
      pendingVerify := m.pendingVerify ≠ 0
      bootAttempts := m.bootAttempts
      activeSlot := slot
      stagingSlot := slot.other } } } := by
  unfold otaInit; rw [h]

/-! ## Runs without a failure -/

/-- The application in a slot comes up. -/
theorem otaInit_up {f : Flash} {m : OtaMetadata} (slot : Slot)
    (hr : readMetadata f.image = some m) :
    ∃ ota, otaInit slot allOk ⟨f, OtaState.zero⟩ = ⟨f, ota⟩ ∧
      ota.status.stagingSlot = slot.other ∧ ota.status.updateInProgress = false ∧
      ota.status.pendingVerify = decide (m.pendingVerify ≠ 0) :=
  ⟨_, otaInit_some (s := ⟨f, OtaState.zero⟩) hr, rfl, rfl, rfl⟩

/-- Without a record, the bootloader commits slot A and enters it. -/
theorem boot_noRecord {f : Flash} (hr : readMetadata f.image = none)
    (hv : slotLooksValid .a f.image = true) :
    ∃ f', main allOk f = (f', .jumped .a) ∧ readMetadata f'.image = some (freshRecord .a) ∧
      SameSlots f.image f'.image := by
  obtain ⟨f', he, hr', hs⟩ := writeThen_ok allOk (freshRecord .a) f
    (fun f => (f, jumpToSlot .a f.image)) rfl rfl rfl rfl
  exact ⟨f', by rw [main_noRecord hr hv, he, hs.jump hv], hr', hs⟩

/-- A slot off probation is entered. -/
theorem boot_settled {f : Flash} {m : OtaMetadata} {t : Slot} (hr : readMetadata f.image = some m)
    (ha : m.activeSlot = t.byte) (hp : m.pendingVerify = 0)
    (hv : slotLooksValid t f.image = true) (power : Nat → Bool) :
    main power f = (f, .jumped t) := by
  rw [main_settled hr hp, enterActive_valid (by rw [ha, Slot.ofByte_byte]) hv]

/-- An active slot that does not look valid is passed over for the other one. -/
theorem enterActive_fallback (power : Nat → Bool) {f : Flash} {m : OtaMetadata} {t : Slot}
    (hr : readMetadata f.image = some m) (ht : Slot.ofByte m.activeSlot = t)
    (hv : slotLooksValid t f.image = false) (ho : slotLooksValid t.other f.image = true)
    (h0 : power 0 = true) (h1 : power 1 = true) :
    ∃ f', enterActive power m f = (f', .jumped t.other) ∧
      readMetadata f'.image = some (flipped m) ∧ SameSlots f.image f'.image := by
  obtain ⟨hm, hver, hcrc⟩ := readMetadata_magic hr
  obtain ⟨f', he, hr', hs⟩ := writeThen_ok power (flipped m) f
    (fun f => (f, jumpToSlot t.other f.image)) hm hver h0 h1
  refine ⟨f', ?_, ?_, hs⟩
  · rw [enterActive_other ht hv ho, he, hs.jump ho]
  · rw [hr', OtaMetadata.clear_crc32 (by exact hcrc)]

/-- On probation, the attempt is counted before the active slot is entered. -/
theorem main_counted {f : Flash} {m : OtaMetadata} (hr : readMetadata f.image = some m)
    (hp : m.pendingVerify ≠ 0) (hn : ¬ otaMaxBootAttempts ≤ m.bootAttempts) :
    ∃ f', main allOk f
        = enterActive (fun k => allOk (k + 2)) { m with bootAttempts := m.bootAttempts + 1 } f' ∧
      readMetadata f'.image = some { m with bootAttempts := m.bootAttempts + 1 } ∧
      SameSlots f.image f'.image := by
  obtain ⟨hm, hver, hcrc⟩ := readMetadata_magic hr
  obtain ⟨f', he, hr', hs⟩ := writeThen_ok allOk
    { m with bootAttempts := m.bootAttempts + 1 } f
    (fun f => enterActive (fun k => allOk (k + 2)) { m with bootAttempts := m.bootAttempts + 1 } f)
    hm hver rfl rfl
  rw [OtaMetadata.clear_crc32 (by exact hcrc)] at hr'
  exact ⟨f', by rw [main_attempt hr hp hn, he], hr', hs⟩

/-- A slot on probation is entered, and the attempt counted. -/
theorem boot_attempt {f : Flash} {m : OtaMetadata} {t : Slot} (hr : readMetadata f.image = some m)
    (ha : m.activeSlot = t.byte) (hp : m.pendingVerify ≠ 0)
    (hn : ¬ otaMaxBootAttempts ≤ m.bootAttempts) (hv : slotLooksValid t f.image = true) :
    ∃ f', main allOk f = (f', .jumped t) ∧
      readMetadata f'.image = some { m with bootAttempts := m.bootAttempts + 1 } ∧
      SameSlots f.image f'.image := by
  obtain ⟨f', he, hr', hs⟩ := main_counted hr hp hn
  refine ⟨f', ?_, hr', hs⟩
  rw [he]
  exact enterActive_valid (by show Slot.ofByte m.activeSlot = t; rw [ha, Slot.ofByte_byte])
    (hs.valid hv)

/-- A slot that has used up its attempts is rolled back. -/
theorem boot_rollback {f : Flash} {m : OtaMetadata} (hr : readMetadata f.image = some m)
    (hp : m.pendingVerify ≠ 0) (hn : otaMaxBootAttempts ≤ m.bootAttempts) :
    ∃ f', main allOk f = (f', .rebooted) ∧ readMetadata f'.image = some (flipped m) ∧
      SameSlots f.image f'.image := by
  obtain ⟨hm, hver, hcrc⟩ := readMetadata_magic hr
  obtain ⟨f', he, hr', hs⟩ := writeThen_ok allOk (flipped m) f
    (fun f => (f, .rebooted)) hm hver rfl rfl
  exact ⟨f', by rw [main_rollback hr hp hn, he], by
    rw [hr', OtaMetadata.clear_crc32 (by exact hcrc)], hs⟩

/-! ## A bootable image -/

/-- An image whose vector table looks valid: stack pointer `0x20040000`, entry `0x10004101`. -/
def bootable : Chunk :=
  ⟨List.replicate 256 0xFF ++ [0x00, 0x00, 0x04, 0x20, 0x01, 0x41, 0x00, 0x10], by
    rw [List.length_append, List.length_replicate]; decide⟩

theorem bootable_length : bootable.1.length = 264 := by
  rw [bootable, List.length_append, List.length_replicate]; rfl

theorem bootable_programmed (slot : Slot) :
    slotLooksValid slot (NorFlash.program slot.offset bootable.1 fun _ => 0xFF) = true := by
  cases slot <;> decide +kernel

/-- A slot that holds the image looks valid. -/
theorem bootable_valid (slot : Slot) {f : Image} (h : SlotHolds slot.offset bootable.1 f) :
    slotLooksValid slot f = true := by
  have hS : otaSlotSize = 786432 := rfl
  have hlen := bootable_length
  -- the vector table is what programming the image on an erased slot leaves there
  rw [slotLooksValid_congr (g := NorFlash.program slot.offset bootable.1 fun _ => 0xFF)]
  · exact bootable_programmed slot
  · intro i hi
    have hread : (read slot.offset otaSlotSize f).getD (256 + i) 0xFF =
        f (slot.offset + (256 + i)) :=
      read_getD (by omega)
    rw [h, List.getD_append _ _ _ _ (by omega)] at hread
    rw [Nat.add_assoc, program_blank (by omega) rfl, ← hread]

end PicoBLE.Ota
