import PicoBLE.Ota.Rollback

/-!
# Images linked for the wrong slot

Jumping to a slot means jumping to the entry address in its vector table, and
an image linked for the other slot sends the processor there: the old
application runs, while the record says that the new one is on probation.

The README promises that such an update fails its probation and is rolled back.
`ota_confirm` does not keep the promise. It never compares the record's
`active_slot` with the slot it was built for, so the old application confirms
the new image in its own name. The other way to lose the promise is to lose the
record: the bootloader then commits slot A, whatever has been applied there.
`Guarded` says that neither happens.
-/

namespace PicoBLE.Ota

open NorFlash
open PicoBLE.Bootloader

/-! ## Entry addresses -/

/-- Where the flash appears in the address space. -/
def xipBase : Nat := 0x10000000

/-- The address is in the range of a slot. -/
def Slot.Contains (s : Slot) (addr : Nat) : Prop :=
  xipBase + s.offset ≤ addr ∧ addr < xipBase + s.offset + otaSlotSize

instance (s : Slot) (addr : Nat) : Decidable (s.Contains addr) :=
  inferInstanceAs (Decidable (xipBase + s.offset ≤ addr ∧ addr < xipBase + s.offset + otaSlotSize))

/-- The slot that the entry address of a slot's image lies in. -/
def entrySlot (t : Slot) (f : Image) : Option Slot :=
  let entry := (word (t.offset + 256 + 4) f).toNat
  if Slot.Contains .a entry then some .a else if Slot.Contains .b entry then some .b else none

/-- The image in a slot can be entered, and stays in the slot. -/
def RightLinked (t : Slot) (f : Image) : Prop :=
  slotLooksValid t f = true ∧ entrySlot t f = some t

/-- The image in a slot can be entered, and the entry is in the other slot. -/
def WrongLinked (t : Slot) (f : Image) : Prop :=
  slotLooksValid t f = true ∧ entrySlot t f = some t.other

theorem SameSlot.entrySlot_eq {slot : Slot} {f g : Image} (h : SameSlot slot f g) :
    entrySlot slot g = entrySlot slot f := by
  have hS : otaSlotSize = 786432 := rfl
  have hword : word (slot.offset + 256 + 4) g = word (slot.offset + 256 + 4) f := by
    unfold word
    rw [read_congr fun i hi => ?_]
    rw [Nat.add_assoc, Nat.add_assoc]
    exact h (256 + (4 + i)) (by omega)
  unfold entrySlot
  rw [hword]

theorem RightLinked.congr {t : Slot} {f g : Image} (h : RightLinked t f) (hs : SameSlot t f g) :
    RightLinked t g :=
  ⟨hs.valid_eq.trans h.1, hs.entrySlot_eq.trans h.2⟩

theorem WrongLinked.congr {t : Slot} {f g : Image} (h : WrongLinked t f) (hs : SameSlot t f g) :
    WrongLinked t g :=
  ⟨hs.valid_eq.trans h.1, hs.entrySlot_eq.trans h.2⟩

theorem RightLinked.not_wrong {t : Slot} {f : Image} (h : RightLinked t f) : ¬ WrongLinked t f := by
  intro hw
  have hself : t = t.other := Option.some.inj (h.2.symm.trans hw.2)
  exact Slot.other_ne t hself.symm

/-! ## The board, with the code at the entry address running -/

/-- Who has the processor after a bootloader run: the application of the slot
that the entry address lies in, or nobody who would do anything. -/
def Cpu.handover (f : Image) : Boot → Cpu
  | .jumped t =>
    match entrySlot t f with
    | some s => .started s
    | none => .bootsel
  | r => .afterBoot r

theorem handover_some {t s : Slot} {f : Image} (h : entrySlot t f = some s) :
    Cpu.handover f (.jumped t) = .started s := by
  simp only [Cpu.handover, h]

theorem handover_none {t : Slot} {f : Image} (h : entrySlot t f = none) :
    Cpu.handover f (.jumped t) = .bootsel := by
  simp only [Cpu.handover, h]

/-- The board, and which slots hold an image that was applied. -/
structure LinkedBoard where
  board : Board
  applied : PerSlot Bool

/-- One event of the board. -/
def Board.linkedStep (b : Board) (e : Event) : Option Board :=
  match e, b.cpu with
  | .boot power, .bootloader =>
    some ⟨(main power b.flash).1, .handover (main power b.flash).1.image (main power b.flash).2⟩
  | .boot _, _ => none
  | e, _ => b.step e

/-- The applied slots after an event: `ota_apply` adds the staging slot, and the
first erase of `ota_begin` removes it. -/
def appliedAfter (w : LinkedBoard) : Event → PerSlot Bool
  | .apply ok =>
    match w.board.cpu with
    | .app _ ota =>
      if ota.status.imageReady = true ∧ ok 0 = true ∧ ok 1 = true then
        w.applied.set ota.status.stagingSlot true
      else w.applied
    | _ => w.applied
  | .call (.begin n ok) =>
    match w.board.cpu with
    | .app _ ota =>
      if ota.status.updateInProgress = false ∧ n ≤ otaSlotSize ∧ ok 0 = true then
        w.applied.set ota.status.stagingSlot false
      else w.applied
    | _ => w.applied
  | _ => w.applied

/-- What an event can do: hand over, or what it does to any board. -/
theorem Board.linkedStep_cases {b b' : Board} {e : Event} (h : b.linkedStep e = some b') :
    (∃ power, e = .boot power ∧ b.cpu = .bootloader ∧ b' = ⟨(main power b.flash).1,
      .handover (main power b.flash).1.image (main power b.flash).2⟩) ∨
    ((∀ power, e ≠ .boot power) ∧ b.step e = some b') := by
  obtain ⟨f, cpu⟩ := b
  cases e with
  | boot power =>
    cases cpu with
    | bootloader => exact .inl ⟨power, rfl, rfl, (Option.some.inj h).symm⟩
    | started _ | app _ _ | bootsel => exact absurd h (by simp [Board.linkedStep])
  | reset | init _ | call _ | apply _ | confirm _ => exact .inr ⟨fun _ => by simp, h⟩

def LinkedBoard.step (w : LinkedBoard) (e : Event) : Option LinkedBoard :=
  (w.board.linkedStep e).map fun b => ⟨b, appliedAfter w e⟩

theorem LinkedBoard.step_eq {w w' : LinkedBoard} {e : Event} (h : w.step e = some w') :
    w.board.linkedStep e = some w'.board ∧ w'.applied = appliedAfter w e := by
  obtain ⟨b, hb, rfl⟩ := Option.map_eq_some_iff.mp h
  exact ⟨hb, rfl⟩

/-- Runs start from the bootloader, with no record yet and an application in
slot A that was linked for it. -/
def linkedBoards : LTS LinkedBoard Event :=
  LTS.ofFun
    (fun w => w.board.cpu = .bootloader ∧ readMetadata w.board.flash.image = none ∧
      RightLinked .a w.board.flash.image ∧ w.applied = ⟨false, false⟩)
    LinkedBoard.step

/-- An applied image that would not run in its own slot. -/
def Stray (applied : PerSlot Bool) (t : Slot) (f : Image) : Prop :=
  applied.get t = true ∧ WrongLinked t f

/-- An event that does not confirm a stray image: `ota_confirm` rewrites the
record of an applied image only for the slot it was built for, and the
bootloader does not run without a record while slot A holds a stray image. -/
def Guarded (w : LinkedBoard) : Event → Prop
  | .confirm ok => ∀ slot ota m, w.board.cpu = .app slot ota → ota.status.Unconfirmed →
      ok 0 = true → ok 1 = true → readMetadata w.board.flash.image = some m →
      w.applied.get slot.other = true → m.activeSlot = slot.byte
  | .boot power => power 0 = true → power 1 = true → w.board.cpu = .bootloader →
      readMetadata w.board.flash.image = none → ¬ Stray w.applied .a w.board.flash.image
  | _ => True

/-! ## The invariant -/

/-- What a record promises: the slot it would settle on is not a stray one. -/
structure Settles (applied : PerSlot Bool) (f : Image) (m : OtaMetadata) (t : Slot) : Prop where
  active : m.activeSlot = t.byte
  settled : m.pendingVerify = 0 → ¬ Stray applied t f
  probation : m.pendingVerify ≠ 0 → ¬ Stray applied t.other f

def RecordSettles (applied : PerSlot Bool) (f : Image) : Prop :=
  ∀ m, readMetadata f = some m → ∃ t, Settles applied f m t

/-- The application of a slot is running where it was linked for. When the record
names the other slot, that is because an image there is linked for this one. -/
structure AtHome (applied : PerSlot Bool) (f : Image) (slot : Slot) : Prop where
  linked : RightLinked slot f
  strayed : ∀ m, readMetadata f = some m → m.activeSlot = slot.other.byte →
    applied.get slot.other = true → WrongLinked slot.other f

def CpuAtHome (applied : PerSlot Bool) (f : Flash) : Cpu → Prop
  | .bootloader => True
  | .bootsel => True
  | .started slot => AtHome applied f.image slot ∧ ∃ m, readMetadata f.image = some m
  | .app slot ota =>
    AtHome applied f.image slot ∧ ota.status.stagingSlot = slot.other ∧ Tracked ⟨f, ota⟩ ∧
    (ota.status.updateInProgress = true → applied.get slot.other = false)

structure LinkInv (w : LinkedBoard) : Prop where
  linked : ∃ r, RightLinked r w.board.flash.image
  record : RecordSettles w.applied w.board.flash.image
  cpu : CpuAtHome w.applied w.board.flash w.board.cpu

section Records

variable {applied : PerSlot Bool} {f g : Image} {m : OtaMetadata} {t : Slot}

theorem not_stray_congr (h : ¬ Stray applied t f) (hs : SameSlot t g f) : ¬ Stray applied t g :=
  fun hw => h ⟨hw.1, hw.2.congr hs⟩

theorem SameSlots.symm (h : SameSlots f g) : SameSlots g f := fun i hi => (h i hi).symm

theorem Settles.congr (h : Settles applied f m t) (hs : SameSlots f g) : Settles applied g m t where
  active := h.active
  settled h0 := not_stray_congr (h.settled h0) (hs.symm.slot t)
  probation hp := not_stray_congr (h.probation hp) (hs.symm.slot t.other)

theorem recordSettles_none (h : readMetadata f = none) : RecordSettles applied f := by
  intro m hm
  exact absurd (h.symm.trans hm) (by simp)

theorem recordSettles_some (h : readMetadata f = some m) (hm : Settles applied f m t) :
    RecordSettles applied f := by
  intro m' hm'
  obtain rfl := Option.some.inj (h.symm.trans hm')
  exact ⟨t, hm⟩

/-- The checksum field is no part of the promise. -/
theorem Settles.clear (h : Settles applied f m t) : Settles applied f { m with crc32 := 0 } t :=
  ⟨h.active, h.settled, h.probation⟩

theorem settles_flipped (ha : m.activeSlot = t.byte) (hn : ¬ Stray applied t.other f) :
    Settles applied f (flipped m) t.other where
  active := flipped_active ha
  settled _ := hn
  probation h := absurd rfl h

end Records

/-! ## The bootloader -/

/-- What a run of the bootloader leaves. -/
structure HandsOver (applied : PerSlot Bool) (f : Image) (r : Flash × Boot) : Prop where
  slots : SameSlots f r.1.image
  record : RecordSettles applied r.1.image
  entered : ∀ t, r.2 = .jumped t → slotLooksValid t r.1.image = true ∧
    ∃ m, readMetadata r.1.image = some m ∧ m.activeSlot = t.byte

section Boot

variable {applied : PerSlot Bool} {power : Nat → Bool} {f : Flash} {m : OtaMetadata} {t : Slot}

theorem handsOver_stop {r : Boot} (h : RecordSettles applied f.image) (hr : ∀ t, r ≠ .jumped t) :
    HandsOver applied f.image (f, r) :=
  ⟨SameOutside.refl _ _ _, h, fun t ht => absurd ht (hr t)⟩

theorem handsOver_jump (hr : readMetadata f.image = some m) (hm : Settles applied f.image m t)
    (hv : slotLooksValid t f.image = true) : HandsOver applied f.image (f, .jumped t) := by
  refine ⟨SameOutside.refl _ _ _, recordSettles_some hr hm, fun u hu => ?_⟩
  obtain rfl := Boot.jumped.inj hu
  exact ⟨hv, m, hr, hm.active⟩

/-- Writing a record that settles well, and going on. -/
theorem handsOver_writeThen {next : Flash → Flash × Boot} (hm : m.magic = otaMetaMagic)
    (hv : m.version = otaMetaVersion) (hf : RecordSettles applied f.image)
    (hgood : power 0 = true → power 1 = true → Settles applied f.image m t)
    (hnext : ∀ g : Flash, readMetadata g.image = some { m with crc32 := 0 } →
      Settles applied g.image { m with crc32 := 0 } t → SameSlots f.image g.image →
      HandsOver applied g.image (next g)) :
    HandsOver applied f.image (writeThen power m f next) := by
  unfold writeThen
  rw [writeMetadata_eq]
  rcases writeMetadata_cases power m f with
    ⟨-, he⟩ | ⟨-, -, g, he, hn, hs⟩ | ⟨h0, h1, g, he, hr, hs⟩
  · -- power is lost before anything happens
    rw [he]
    exact handsOver_stop hf fun _ => by simp
  · -- power is lost over an erased sector
    rw [he]
    exact ⟨hs, recordSettles_none hn, fun _ h => absurd h (by simp)⟩
  · rw [he]
    have hgood' := ((hgood h0 h1).congr hs).clear
    obtain ⟨hslots, hrec, hent⟩ := hnext g (hr hm hv) hgood' hs
    exact ⟨hs.trans hslots, hrec, hent⟩

/-- The last part of `main`. -/
theorem handsOver_enterActive (hlink : ∃ r, RightLinked r f.image)
    (hr : readMetadata f.image = some m) (hgood : Settles applied f.image m t) :
    HandsOver applied f.image (enterActive power m f) := by
  obtain ⟨hm, hver, -⟩ := readMetadata_magic hr
  have ht : Slot.ofByte m.activeSlot = t := by rw [hgood.active, Slot.ofByte_byte]
  have hf := recordSettles_some hr hgood
  cases hv : slotLooksValid t f.image with
  | true =>
    rw [enterActive_valid ht hv]
    exact handsOver_jump hr hgood hv
  | false =>
    cases ho : slotLooksValid t.other f.image with
    | false =>
      rw [enterActive_none ht hv ho]
      exact handsOver_stop hf fun _ => by simp
    | true =>
      -- one of the slots is linked right, and it is not the invalid one
      have hother : RightLinked t.other f.image := by
        obtain ⟨r, hright⟩ := hlink
        rcases Slot.eq_or_other t r with rfl | rfl
        · exact absurd (hv.symm.trans hright.1) Bool.false_ne_true
        · exact hright
      rw [enterActive_other ht hv ho]
      refine handsOver_writeThen (t := t.other) hm hver hf
        (fun _ _ => settles_flipped hgood.active fun hw => hother.not_wrong hw.2) ?_
      intro g hg hsettles hs
      rw [hs.jump ho]
      exact handsOver_jump hg hsettles (hs.valid ho)

/-- **A bootloader run settles on no stray image** it was not on before, unless it
has no record to go by. -/
theorem handsOver_main (hlink : ∃ r, RightLinked r f.image) (hf : RecordSettles applied f.image)
    (hguard : power 0 = true → power 1 = true → readMetadata f.image = none →
      ¬ Stray applied .a f.image) : HandsOver applied f.image (main power f) := by
  cases hr : readMetadata f.image with
  | none =>
    cases hv : slotLooksValid .a f.image with
    | false =>
      rw [main_nothing hr hv]
      exact handsOver_stop hf fun _ => by simp
    | true =>
      rw [main_noRecord hr hv]
      refine handsOver_writeThen (t := .a) rfl rfl hf
        (fun h0 h1 => ⟨rfl, fun _ => hguard h0 h1 hr, fun h => absurd rfl h⟩) ?_
      intro g hg hsettles hs
      rw [hs.jump hv]
      exact handsOver_jump hg hsettles (hs.valid hv)
  | some m =>
    obtain ⟨hm, hver, hcrc⟩ := readMetadata_magic hr
    obtain ⟨t, hgood⟩ := hf m hr
    by_cases hp : m.pendingVerify = 0
    · rw [main_settled hr hp]
      exact handsOver_enterActive hlink hr hgood
    · by_cases hn : otaMaxBootAttempts ≤ m.bootAttempts
      · -- the slot that is rolled back to
        rw [main_rollback hr hp hn]
        refine handsOver_writeThen hm hver hf
          (fun _ _ => settles_flipped hgood.active (hgood.probation hp)) ?_
        intro g hg hsettles _
        exact handsOver_stop (recordSettles_some hg hsettles) fun _ => by simp
      · rw [main_attempt hr hp hn]
        refine handsOver_writeThen (t := t) hm hver hf
          (fun _ _ => ⟨hgood.active, hgood.settled, hgood.probation⟩) ?_
        intro g hg hsettles hs
        rw [OtaMetadata.clear_crc32 (by exact hcrc)] at hg hsettles
        obtain ⟨r, hright⟩ := hlink
        exact handsOver_enterActive ⟨r, hright.congr (hs.slot r)⟩ hg hsettles

/-- Whoever the processor is handed to is at home. -/
theorem HandsOver.cpu {r : Flash × Boot} (h : HandsOver applied f.image r)
    (hlink : ∃ r, RightLinked r f.image) : CpuAtHome applied r.1 (.handover r.1.image r.2) := by
  obtain ⟨g, b⟩ := r
  obtain ⟨hs, -, hent⟩ := h
  dsimp only at hs hent ⊢
  cases b with
  | bootsel => trivial
  | rebooted => trivial
  | powerLost => trivial
  | jumped t =>
    obtain ⟨hv, m, hr, ha⟩ := hent t rfl
    cases he : entrySlot t g.image with
    | none => rw [handover_none he]; trivial
    | some s =>
      rw [handover_some he]
      refine ⟨?_, m, hr⟩
      rcases Slot.eq_or_other t s with rfl | rfl
      · refine ⟨⟨hv, he⟩, fun m' hr' ha' => ?_⟩
        obtain rfl := Option.some.inj (hr.symm.trans hr')
        exact absurd (Slot.byte_inj.mp (ha'.symm.trans ha)) (Slot.other_ne _)
      · -- the entry is in the other slot, so it is the other slot that is linked right
        refine ⟨?_, fun _ _ _ _ => ?_⟩
        · obtain ⟨u, hright⟩ := hlink
          have hright' := hright.congr (hs.slot u)
          rcases Slot.eq_or_other t u with rfl | rfl
          · exact absurd ⟨hv, he⟩ hright'.not_wrong
          · exact hright'
        · rw [Slot.other_other]
          exact ⟨hv, he⟩

end Boot

/-! ## The application -/

section Application

variable {applied applied' : PerSlot Bool} {f g : Flash} {slot : Slot} {ota : OtaState}

/-- Of the two slots, only the staging slot can be a stray one. -/
theorem not_stray {u : Slot} (h : RightLinked slot f.image)
    (hn : ¬ Stray applied slot.other f.image) :
    ¬ Stray applied u f.image := by
  rcases Slot.eq_or_other slot u with rfl | rfl
  · exact fun hw => h.not_wrong hw.2
  · exact hn

theorem not_stray_erased {u : Slot} (h : applied.get u = false) : ¬ Stray applied u f.image :=
  fun hw => absurd (h.symm.trans hw.1) Bool.false_ne_true

theorem settles_of_not_stray {m : OtaMetadata} {t : Slot} (ha : m.activeSlot = t.byte)
    (h : ∀ u, ¬ Stray applied u f.image) : Settles applied f.image m t :=
  ⟨ha, fun _ => h t, fun _ => h t.other⟩

/-- Losing the record changes nothing for the application. -/
theorem AtHome.lost (h : AtHome applied f.image slot) (hs : SameSlots f.image g.image)
    (hn : readMetadata g.image = none) : AtHome applied g.image slot :=
  ⟨h.linked.congr (hs.slot slot), fun m hm => absurd (hn.symm.trans hm) (by simp)⟩

/-- A call does nothing, or the staging slot is no longer one that was applied. -/
theorem appliedAfter_call (c : Call) (hst : ota.status.stagingSlot = slot.other)
    (hbusy : ota.status.updateInProgress = true → applied.get slot.other = false) :
    (c.run ⟨f, ota⟩).1 = ⟨f, ota⟩ ∧ appliedAfter ⟨⟨f, .app slot ota⟩, applied⟩ (.call c) = applied ∨
    (appliedAfter ⟨⟨f, .app slot ota⟩, applied⟩ (.call c)).get slot.other = false := by
  cases hp : ota.status.updateInProgress with
  | true =>
    refine .inr ?_
    cases c with
    | begin n ok =>
      rw [appliedAfter]
      dsimp only
      rw [if_neg fun h => absurd (hp.symm.trans h.1) (by simp)]
      exact hbusy hp
    | write _ _ _ | finalize _ | abort => exact hbusy hp
  | false =>
    cases c with
    | begin n ok =>
      rw [appliedAfter]
      dsimp only
      by_cases hgo : n ≤ otaSlotSize ∧ ok 0 = true
      · rw [if_pos ⟨hp, hgo⟩, hst]
        exact .inr (PerSlot.get_set_self _ _ _)
      · rw [if_neg fun h => hgo h.2]
        refine .inl ⟨run_quiet hp fun n' ok' hc hn => ?_, rfl⟩
        obtain ⟨rfl, rfl⟩ := Call.begin.inj hc
        exact Bool.eq_false_iff.mpr fun h => hgo ⟨hn, h⟩
    | write _ _ _ => exact .inl ⟨run_quiet hp (fun _ _ hc => nomatch hc), rfl⟩
    | finalize _ => exact .inl ⟨run_quiet hp (fun _ _ hc => nomatch hc), rfl⟩
    | abort => exact .inl ⟨run_quiet hp (fun _ _ hc => nomatch hc), rfl⟩

/-- A transfer call keeps the invariant. -/
theorem linkInv_call (c : Call) (h : LinkInv ⟨⟨f, .app slot ota⟩, applied⟩) :
    LinkInv ⟨⟨(c.run ⟨f, ota⟩).1.flash, .app slot (c.run ⟨f, ota⟩).1.ota⟩,
      appliedAfter ⟨⟨f, .app slot ota⟩, applied⟩ (.call c)⟩ := by
  obtain ⟨-, hrec, hhome, hst, ht, hbusy⟩ := h
  dsimp only at hrec hhome
  have hout := run_sameOutside ht c
  rw [App.base, hst] at hout
  have hslot : SameSlot slot f.image (c.run ⟨f, ota⟩).1.flash.image := by
    have hother := sameSlot_other hout
    rwa [Slot.other_other] at hother
  have hright := hhome.linked.congr hslot
  rcases appliedAfter_call c hst hbusy with ⟨hsame, happ⟩ | hfree
  · rw [hsame, happ]
    exact ⟨⟨slot, hhome.linked⟩, hrec, hhome, hst, ht, hbusy⟩
  · refine ⟨⟨slot, hright⟩, fun m hm => ?_, ⟨hright, fun _ _ _ hap => ?_⟩,
      (run_stagingSlot c _).trans hst, tracked_step ht c, fun _ => hfree⟩
    · obtain ⟨t, hgood⟩ := hrec m ((readMetadata_sameOutside hout).symm.trans hm)
      exact ⟨t, settles_of_not_stray hgood.active fun u =>
        not_stray hright (not_stray_erased hfree)⟩
    · exact absurd (hfree.symm.trans hap) Bool.false_ne_true

/-- So does an update of the record by the application that does not reboot. -/
theorem linkInv_update {ota' : OtaState} (h : LinkInv ⟨⟨f, .app slot ota⟩, applied⟩)
    (hs : SameSlots f.image g.image) (ht : Tracked ⟨g, ota'⟩)
    (hst : ota'.status.stagingSlot = ota.status.stagingSlot)
    (hbusy : ota'.status.updateInProgress = ota.status.updateInProgress)
    (hrec : ∀ m, readMetadata g.image = some m →
      (∃ t, Settles applied g.image m t) ∧ (applied.get slot.other = true →
        m.activeSlot = slot.byte)) :
    LinkInv ⟨⟨g, .app slot ota'⟩, applied⟩ := by
  obtain ⟨⟨r, hright⟩, -, hhome, hst₀, -, hbusy₀⟩ := h
  refine ⟨⟨r, hright.congr (hs.slot r)⟩, fun m hm => (hrec m hm).1, ⟨?_, fun m hm ha hap => ?_⟩,
    hst.trans hst₀, ht, fun hp => hbusy₀ (hbusy.symm.trans hp)⟩
  · exact hhome.linked.congr (hs.slot slot)
  · have hself := (hrec m hm).2 hap
    exact absurd (Slot.byte_inj.mp (ha.symm.trans hself)) (Slot.other_ne slot)

end Application

/-! ## Every run -/

/-- One event that confirms no stray image keeps the invariant. -/
theorem linkInv_step {w w' : LinkedBoard} {e : Event} (h : LinkInv w) (hg : Guarded w e)
    (hs : linkedBoards.step w e w') : LinkInv w' := by
  obtain ⟨⟨f, cpu⟩, applied⟩ := w
  obtain ⟨b', applied'⟩ := w'
  obtain ⟨hb, happ⟩ := LinkedBoard.step_eq hs
  clear hs
  have hinv := h
  obtain ⟨hlink, hrec, hcpu⟩ := h
  dsimp only at hlink hrec hcpu hb happ
  rcases Board.linkedStep_cases hb with ⟨power, rfl, rfl, rfl⟩ | ⟨hne, hstep⟩
  · -- a bootloader run
    obtain rfl : applied' = applied := happ
    have hover := handsOver_main hlink hrec fun h0 h1 hr => hg h0 h1 rfl hr
    have hcpu' := hover.cpu hlink
    generalize main power f = r at hover hcpu' ⊢
    obtain ⟨u, hright⟩ := hlink
    exact ⟨⟨u, hright.congr (hover.slots.slot u)⟩, hover.record, hcpu'⟩
  rcases Board.step_cases hstep with
    ⟨rfl, rfl⟩ | ⟨power, rfl, -⟩ | ⟨ok, slot, rfl, rfl, rfl⟩ | ⟨c, slot, ota, rfl, rfl, rfl⟩ |
    ⟨ok, slot, ota, a, r, rfl, rfl, ha, rfl⟩ | ⟨ok, slot, ota, a, rfl, rfl, ha, rfl⟩ |
    ⟨ok, slot, ota, rfl, rfl, rfl⟩
  · -- reset
    obtain rfl : applied' = applied := happ
    exact ⟨hlink, hrec, trivial⟩
  · exact absurd rfl (hne power)
  · -- `ota_init`
    obtain rfl : applied' = applied := happ
    obtain ⟨hhome, m, hr⟩ := hcpu
    rw [otaInit_some (s := ⟨f, OtaState.zero⟩) hr]
    exact ⟨hlink, hrec, hhome, rfl, tracked_idle rfl, fun h => absurd h Bool.false_ne_true⟩
  · subst happ
    exact linkInv_call c hinv
  · -- an `ota_apply` that returns
    obtain ⟨hhome, hst, ht, hbusy⟩ := hcpu
    have hkept : ¬ (ota.status.imageReady = true ∧ ok 0 = true ∧ ok 1 = true) →
        applied' = applied :=
      fun hno => happ.trans (if_neg hno)
    obtain ⟨hno, rfl | ⟨hready, g, rfl, hn, hsame⟩⟩ := otaApply_returned ha
    · obtain rfl := hkept hno
      exact hinv
    · obtain rfl := hkept hno
      refine linkInv_update hinv hsame (tracked_idle (ht.idle hready)) rfl rfl fun m hm => ?_
      exact absurd (hn.symm.trans hm) (by simp)
  · -- an `ota_apply` that reboots
    obtain ⟨hhome, hst, ht, hbusy⟩ := hcpu
    obtain ⟨hready, h0, h1, g, rfl, hr, hsame⟩ := otaApply_rebooted ha
    have hright := hhome.linked.congr (hsame.slot slot)
    refine ⟨⟨slot, hright⟩, recordSettles_some (t := slot.other) hr ?_, trivial⟩
    refine ⟨congrArg Slot.byte hst, fun h0 => absurd h0 (by simp [applyMutator]), fun _ => ?_⟩
    rw [Slot.other_other]
    exact fun hw => hright.not_wrong hw.2
  · -- `ota_confirm`
    obtain ⟨hhome, hst, ht, hbusy⟩ := hcpu
    obtain rfl : applied' = applied := happ
    by_cases hun : ota.status.Unconfirmed
    · rcases otaConfirm_cases slot ok (s := ⟨f, ota⟩) hun with
        ⟨he, -⟩ | ⟨g, he, -, -, hn, hsame⟩ | ⟨g, he, h0, h1, hr, hsame⟩
      · rw [he]
        exact hinv
      · rw [he]
        refine linkInv_update hinv hsame (ht.update (hsame.slot ota.status.stagingSlot)) rfl rfl ?_
        exact fun m hm => absurd (hn.symm.trans hm) (by simp)
      · -- the record is rewritten, for the running slot unless the other one is not an applied one
        rw [he]
        refine linkInv_update hinv hsame (ht.update (hsame.slot ota.status.stagingSlot)) rfl rfl ?_
        intro m hm
        obtain rfl := Option.some.inj (hr.symm.trans hm)
        have hright := hhome.linked.congr (hsame.slot slot)
        cases hcur : readMetadata f.image with
        | none =>
          rw [currentRecord_none hcur]
          refine ⟨⟨slot, rfl, fun _ hw => hright.not_wrong hw.2, fun hp => absurd rfl hp⟩,
            fun _ => rfl⟩
        | some m =>
          rw [currentRecord_some hcur]
          have hself := hg slot ota m rfl hun h0 h1 hcur
          obtain ⟨t, hgood⟩ := hrec m hcur
          refine ⟨⟨t, hgood.active, fun _ => ?_, fun hp => absurd rfl hp⟩, hself⟩
          rcases Slot.eq_or_other slot t with rfl | rfl
          · exact fun hw => hright.not_wrong hw.2
          · intro hw
            have hbyte := hgood.active.symm.trans (hself hw.1)
            exact absurd (Slot.byte_inj.mp hbyte) (Slot.other_ne slot)
    · rw [otaConfirm_nothing (s := ⟨f, ota⟩) hun]
      exact hinv

theorem linkInv_reachable {w : LinkedBoard} (h : linkedBoards.ReachableWhen Guarded w) :
    LinkInv w := by
  refine h.inv ?_ fun _ _ _ => linkInv_step
  rintro w ⟨hcpu, hr, hright, -⟩
  refine ⟨⟨.a, hright⟩, recordSettles_none hr, ?_⟩
  rw [hcpu]
  trivial

/-! ## Rolling back -/

/-- Resets, with the bootloader as the only one to do anything in between. -/
def resets (n : Nat) : List Event := (List.replicate n [.reset, .boot allOk]).flatten

theorem resets_succ (n : Nat) : resets (n + 1) = [.reset, .boot allOk] ++ resets n := by
  unfold resets
  rw [List.replicate_succ, List.flatten_cons]

/-- A bootloader run hands over. -/
theorem linked_boot {f g : Flash} {r : Boot} (applied : PerSlot Bool) (he : main allOk f = (g, r)) :
    linkedBoards.step ⟨⟨f, .bootloader⟩, applied⟩ (.boot allOk)
      ⟨⟨g, .handover g.image r⟩, applied⟩ := by
  show some (LinkedBoard.mk ⟨(main allOk f).1,
    .handover (main allOk f).1.image (main allOk f).2⟩ applied) = _
  rw [he]

/-- One reset, with a record in place. -/
theorem run_reset {f : Flash} {cpu : Cpu} {applied : PerSlot Bool} {m : OtaMetadata} {g : Flash}
    {r : Boot} (hr : readMetadata f.image = some m) (he : main allOk f = (g, r)) :
    linkedBoards.Runs Guarded ⟨⟨f, cpu⟩, applied⟩ [.reset, .boot allOk]
      ⟨⟨g, .handover g.image r⟩, applied⟩ := by
  have hreset : linkedBoards.step ⟨⟨f, cpu⟩, applied⟩ .reset ⟨⟨f, .bootloader⟩, applied⟩ := by
    cases cpu <;> rfl
  refine .cons trivial hreset (.cons ?_ (linked_boot applied he) (.nil _))
  exact fun _ _ _ hn => absurd (hn.symm.trans hr) (by simp)

/-- The slot is entered, off probation, and runs. -/
structure RolledBack (u : Slot) (w : LinkedBoard) : Prop where
  running : w.board.cpu = .started u
  record : ∃ m, readMetadata w.board.flash.image = some m ∧ m.activeSlot = u.byte ∧
    m.pendingVerify = 0

/-- **Left unconfirmed, probation runs out**: counting the attempts that are left,
the board is back in the other slot after two more resets. -/
theorem probation_runs_out {f : Flash} {cpu : Cpu} {applied : PerSlot Bool} {m : OtaMetadata}
    {t : Slot} (left : Nat) (hr : readMetadata f.image = some m) (ha : m.activeSlot = t.byte)
    (hp : m.pendingVerify ≠ 0) (hv : slotLooksValid t f.image = true)
    (hright : RightLinked t.other f.image) (hleft : 3 ≤ m.bootAttempts.toNat + left) :
    ∃ n ≤ left + 2, ∃ w, linkedBoards.Runs Guarded ⟨⟨f, cpu⟩, applied⟩ (resets n) w ∧
      RolledBack t.other w := by
  induction left generalizing f cpu m with
  | zero =>
    -- roll back, then enter the slot
    have hn : otaMaxBootAttempts ≤ m.bootAttempts := UInt8.le_iff_toNat_le.mpr hleft
    obtain ⟨g, he, hg, hs⟩ := boot_rollback hr hp hn
    have hright' := hright.congr (hs.slot _)
    have hback := boot_settled hg (flipped_active ha) rfl hright'.1 allOk
    refine ⟨2, Nat.le_refl _, _, (run_reset hr he).append (run_reset hg hback), ?_, ?_⟩
    · exact handover_some hright'.2
    · exact ⟨flipped m, hg, flipped_active ha, rfl⟩
  | succ left ih =>
    by_cases hn : otaMaxBootAttempts ≤ m.bootAttempts
    · -- no attempt is left already
      obtain ⟨n, hle, w, hrun, hback⟩ := @ih f cpu m hr ha hp hv hright
        (Nat.le_trans (UInt8.le_iff_toNat_le.mp hn) (Nat.le_add_right _ _))
      exact ⟨n, Nat.le_succ_of_le hle, w, hrun, hback⟩
    · obtain ⟨g, he, hg, hs⟩ := boot_attempt hr ha hp hn hv
      have hlt : m.bootAttempts.toNat < 3 :=
        Nat.not_le.mp fun h => hn (UInt8.le_iff_toNat_le.mpr h)
      obtain ⟨n, hle, w, hrun, hback⟩ := @ih g (.handover g.image (.jumped t))
        { m with bootAttempts := m.bootAttempts + 1 } hg ha hp
        (hs.valid hv) (hright.congr (hs.slot _)) (by
          rw [UInt8.toNat_add, UInt8.toNat_one, Nat.mod_eq_of_lt (by omega)]
          omega)
      refine ⟨n + 1, Nat.succ_le_succ hle, w, ?_, hback⟩
      rw [resets_succ]
      exact (run_reset hr he).append hrun

/-- **A stray image is never confirmed.** In every run in which no application
confirms an image that is not its own, and no stray image is entered for want
of a record: while the record names the slot of a stray image, the image is on
probation, and five resets at most take the board back to the other slot. -/
theorem stray_neverConfirmed {w : LinkedBoard} (h : linkedBoards.ReachableWhen Guarded w)
    {m : OtaMetadata} {t : Slot} (hr : readMetadata w.board.flash.image = some m)
    (ha : m.activeSlot = t.byte) (hstray : Stray w.applied t w.board.flash.image) :
    m.pendingVerify ≠ 0 ∧
      ∃ n ≤ 5, ∃ w', linkedBoards.Runs Guarded w (resets n) w' ∧ RolledBack t.other w' := by
  obtain ⟨⟨r, hright⟩, hrec, -⟩ := linkInv_reachable h
  obtain ⟨u, hgood⟩ := hrec m hr
  obtain rfl : u = t := Slot.byte_inj.mp (hgood.active.symm.trans ha)
  have hp : m.pendingVerify ≠ 0 := fun h0 => hgood.settled h0 hstray
  have hother : RightLinked u.other w.board.flash.image := by
    rcases Slot.eq_or_other u r with rfl | rfl
    · exact absurd hstray.2 hright.not_wrong
    · exact hright
  exact ⟨hp, probation_runs_out 3 hr ha hp hstray.2.1 hother (Nat.le_add_left _ _)⟩

/-- **Every event that is not guarded confirms a stray image.** -/
theorem unguarded_confirms {w w' : LinkedBoard} {e : Event} (h : LinkInv w) (hg : ¬ Guarded w e)
    (hs : linkedBoards.step w e w') : ∃ m t, readMetadata w'.board.flash.image = some m ∧
      m.activeSlot = t.byte ∧ Stray w'.applied t w'.board.flash.image ∧ m.pendingVerify = 0 := by
  obtain ⟨⟨f, cpu⟩, applied⟩ := w
  obtain ⟨b', applied'⟩ := w'
  obtain ⟨hb, happ⟩ := LinkedBoard.step_eq hs
  dsimp only at hb happ
  cases e with
  | reset | init _ | call _ | apply _ => exact absurd trivial hg
  | boot power =>
    simp only [Guarded, Classical.not_imp, not_not] at hg
    obtain ⟨h0, h1, rfl, hn, hstray⟩ := hg
    obtain rfl : applied' = applied := happ
    have hb' := (Option.some.inj hb).symm
    obtain ⟨g, he, hr, hsame⟩ := writeThen_ok power (freshRecord .a) f
      (fun f => (f, jumpToSlot .a f.image)) rfl rfl h0 h1
    rw [main_noRecord hn hstray.2.1, he] at hb'
    subst hb'
    exact ⟨_, .a, hr, rfl, ⟨hstray.1, hstray.2.congr (hsame.slot _)⟩, rfl⟩
  | confirm ok =>
    simp only [Guarded, Classical.not_forall] at hg
    obtain ⟨slot, ota, m, rfl, hun, h0, h1, hr, hap, hne⟩ := hg
    obtain rfl : applied' = applied := happ
    have hb' := (Option.some.inj hb).symm
    obtain ⟨-, hrec, hhome, -⟩ := h
    obtain ⟨t, hgood⟩ := hrec m hr
    obtain rfl : t = slot.other := by
      rcases Slot.eq_or_other slot t with rfl | rfl
      · exact absurd hgood.active hne
      · rfl
    rcases otaConfirm_cases slot ok (s := ⟨f, ota⟩) hun with
      ⟨-, h0'⟩ | ⟨-, -, -, h1', -⟩ | ⟨g, he, -, -, hg, hsame⟩
    · exact absurd (h0.symm.trans h0') (by simp)
    · exact absurd (h1.symm.trans h1') (by simp)
    · rw [he] at hb'
      subst hb'
      rw [currentRecord_some hr] at hg
      exact ⟨_, slot.other, hg, hgood.active,
        ⟨hap, (hhome.strayed m hr hgood.active hap).congr (hsame.slot _)⟩, rfl⟩

/-! ## A stray image -/

/-- A slot that holds an image reads like one it has just been programmed into. -/
theorem SlotHolds.sameSlot {slot : Slot} {xs : List UInt8} {f : Image}
    (h : SlotHolds slot.offset xs f) (hfit : xs.length ≤ otaSlotSize) :
    SameSlot slot f (NorFlash.program slot.offset xs fun _ => 0xFF) := by
  intro i hi
  have hread : (NorFlash.read slot.offset otaSlotSize f).getD i 0xFF = f (slot.offset + i) :=
    read_getD hi
  rw [h] at hread
  by_cases hlt : i < xs.length
  · rw [List.getD_append _ _ _ _ hlt] at hread
    rw [program_blank hlt rfl, hread]
  · rw [List.getD_append_right _ _ _ _ (Nat.le_of_not_lt hlt),
      List.getD_eq_getElem _ _ (by rw [List.length_replicate]; omega),
      List.getElem_replicate] at hread
    rw [program_outside (.inr (by omega)), hread]

/-- The bootable image is linked for slot A. -/
theorem bootable_entry (slot : Slot) :
    entrySlot slot (NorFlash.program slot.offset bootable.1 fun _ => 0xFF) = some .a := by
  cases slot <;> decide +kernel

theorem bootable_wrong {f : Image} (h : SlotHolds Slot.b.offset bootable.1 f) :
    WrongLinked .b f := by
  have hS : otaSlotSize = 786432 := rfl
  refine ⟨bootable_valid .b h, ?_⟩
  rw [← (h.sameSlot (by rw [bootable_length]; omega)).entrySlot_eq]
  exact bootable_entry .b

/-- The board from the factory, with nothing applied yet. -/
def factoryLinked : LinkedBoard := ⟨factory.board, ⟨false, false⟩⟩

theorem factoryLinked_init : linkedBoards.init factoryLinked :=
  ⟨rfl, factory_init.2.1, ⟨bootable_programmed .a, bootable_entry .a⟩, rfl⟩

/-- Transfer calls are always guarded. -/
theorem linked_calls (slot : Slot) (calls : List Call) (f : Flash) (ota : OtaState)
    (applied : PerSlot Bool) : ∃ applied', linkedBoards.Runs Guarded ⟨⟨f, .app slot ota⟩, applied⟩
      (calls.map .call)
      ⟨⟨(runCalls calls ⟨f, ota⟩).flash, .app slot (runCalls calls ⟨f, ota⟩).ota⟩, applied'⟩ := by
  induction calls generalizing f ota applied with
  | nil => exact ⟨applied, .nil _⟩
  | cons c calls ih =>
    obtain ⟨applied', hrun⟩ := ih (c.run ⟨f, ota⟩).1.flash (c.run ⟨f, ota⟩).1.ota
      (appliedAfter ⟨⟨f, .app slot ota⟩, applied⟩ (.call c))
    exact ⟨applied', .cons trivial rfl hrun⟩

/-- A slot that has been entered comes up. -/
theorem linked_init {f : Flash} {m : OtaMetadata} (slot : Slot) (applied : PerSlot Bool)
    (hr : readMetadata f.image = some m) : ∃ ota,
      linkedBoards.Runs Guarded ⟨⟨f, .started slot⟩, applied⟩ [.init allOk]
        ⟨⟨f, .app slot ota⟩, applied⟩ ∧
      ota.status.stagingSlot = slot.other ∧ ota.status.updateInProgress = false ∧
      ota.status.pendingVerify = decide (m.pendingVerify ≠ 0) := by
  obtain ⟨ota, hup, hst, hidle, hp⟩ := otaInit_up slot hr
  have hstep : linkedBoards.step ⟨⟨f, .started slot⟩, applied⟩ (.init allOk)
      ⟨⟨(otaInit slot allOk ⟨f, OtaState.zero⟩).flash,
        .app slot (otaInit slot allOk ⟨f, OtaState.zero⟩).ota⟩, applied⟩ := rfl
  rw [hup] at hstep
  exact ⟨ota, .cons trivial hstep (.nil _), hst, hidle, hp⟩

/-- An image is staged and applied. -/
theorem linked_install {slot : Slot} {f : Flash} {ota : OtaState} (applied : PerSlot Bool)
    (hidle : ota.status.updateInProgress = false) (hst : ota.status.stagingSlot = slot.other)
    {img : Chunk} (hne : img.1 ≠ []) (hfit : img.1.length ≤ otaSlotSize) :
    ∃ f' m' applied', linkedBoards.Runs Guarded ⟨⟨f, .app slot ota⟩, applied⟩
        ((stageCalls img).map .call ++ [.apply allOk]) ⟨⟨f', .bootloader⟩, applied'⟩ ∧
      readMetadata f'.image = some m' ∧ m'.activeSlot = slot.other.byte ∧ m'.pendingVerify = 1 ∧
      m'.bootAttempts = 0 ∧ applied'.get slot.other = true ∧
      SlotHolds slot.other.offset img.1 f'.image := by
  obtain ⟨⟨g, ota'⟩, g', hinst⟩ := install_ok (s := ⟨f, ota⟩) hidle hst hne hfit
  obtain ⟨m', hr, ha, hp, hn, -⟩ := hinst.record
  obtain ⟨applied', hcalls⟩ := linked_calls slot (stageCalls img) f ota applied
  rw [hinst.calls] at hcalls
  have happ : appliedAfter ⟨⟨g, .app slot ota'⟩, applied'⟩ (.apply allOk)
      = applied'.set slot.other true := by
    rw [appliedAfter]
    dsimp only
    rw [if_pos ⟨hinst.ready, rfl, rfl⟩, hinst.staging]
  have hstep : linkedBoards.step ⟨⟨g, .app slot ota'⟩, applied'⟩ (.apply allOk)
      ⟨⟨g', .bootloader⟩, applied'.set slot.other true⟩ := by
    show (Board.linkedStep ⟨g, .app slot ota'⟩ (.apply allOk)).map _ = _
    rw [happ]
    simp only [Board.linkedStep, Board.step, hinst.apply, Option.map_some]
  exact ⟨g', m', _, hcalls.append (.cons trivial hstep (.nil _)), hr, ha, hp, hn,
    PerSlot.get_set_self _ _ _, hinst.holds⟩

/-- Install the bootable image in slot B, and boot it. -/
def strayUpdate : List Event :=
  [.boot allOk, .init allOk] ++ ((stageCalls bootable).map .call ++ [.apply allOk])
    ++ [.reset, .boot allOk, .init allOk]

/-- The application in slot A is back, and the image in slot B is on probation. -/
theorem factory_strayUpdate : ∃ f ota applied m,
    linkedBoards.Runs Guarded factoryLinked strayUpdate ⟨⟨f, .app .a ota⟩, applied⟩ ∧
    readMetadata f.image = some m ∧ m.activeSlot = Slot.b.byte ∧ m.pendingVerify ≠ 0 ∧
    Stray applied .b f.image ∧ ota.status.pendingVerify = true := by
  have hS : otaSlotSize = 786432 := rfl
  obtain ⟨-, hr₀, hright₀, -⟩ := factoryLinked_init
  obtain ⟨f₁, he₁, hr₁, hs₁⟩ := boot_noRecord hr₀ hright₀.1
  have hboot₁ := linked_boot ⟨false, false⟩ he₁
  rw [handover_some (hright₀.congr (hs₁.slot _)).2] at hboot₁
  obtain ⟨ota₁, hinit₁, hst₁, hidle₁, -⟩ := linked_init .a ⟨false, false⟩ hr₁
  -- the image is staged and applied
  have hne : bootable.1 ≠ [] := List.ne_nil_of_length_pos (by rw [bootable_length]; omega)
  obtain ⟨f₂, m₂, applied₂, hinstall, hr₂, ha₂, hp₂, hn₂, happ₂, hslot⟩ :=
    @linked_install .a f₁ ota₁ ⟨false, false⟩ hidle₁ hst₁ bootable hne
      (by rw [bootable_length]; omega)
  rw [show Slot.a.other = .b from rfl] at ha₂ happ₂ hslot
  -- it is entered, and leads back to slot A
  have hp₂' : m₂.pendingVerify ≠ 0 := by rw [hp₂]; simp
  have hwrong := bootable_wrong hslot
  obtain ⟨f₃, he₃, hr₃, hs₃⟩ := boot_attempt hr₂ ha₂ hp₂' (by rw [hn₂]; decide) hwrong.1
  have hwrong₃ := hwrong.congr (hs₃.slot _)
  have hback := @run_reset f₂ .bootloader applied₂ _ _ _ hr₂ he₃
  rw [handover_some hwrong₃.2] at hback
  obtain ⟨ota₃, hinit₃, -, -, hp₃⟩ := linked_init .a applied₂ hr₃
  refine ⟨f₃, ota₃, applied₂, _, ?_, hr₃, ha₂, hp₂', ⟨happ₂, hwrong₃⟩, ?_⟩
  · refine LTS.Runs.append (LTS.Runs.append (.cons ?_ hboot₁ hinit₁) hinstall) (hback.append hinit₃)
    exact fun _ _ _ _ h => Bool.false_ne_true h.1
  · rw [hp₃]
    exact decide_eq_true hp₂'

theorem factory_stray : ∃ w m, linkedBoards.ReachableWhen Guarded w ∧
    readMetadata w.board.flash.image = some m ∧ m.activeSlot = Slot.b.byte ∧ m.pendingVerify ≠ 0 ∧
    ∃ n ≤ 5, ∃ w', linkedBoards.Runs Guarded w (resets n) w' ∧ RolledBack .a w' := by
  obtain ⟨f, ota, applied, m, hrun, hr, ha, -, hstray, -⟩ := factory_strayUpdate
  have hreach := hrun.reachableWhen (.init factoryLinked_init)
  obtain ⟨hp, hback⟩ := stray_neverConfirmed hreach hr ha hstray
  exact ⟨_, m, hreach, hr, ha, hp, hback⟩

/-- The application in slot A survives its 30 seconds and confirms the image in slot B. -/
theorem strayUpdate_confirmed : ∃ w m,
    linkedBoards.Runs (fun _ _ => True) factoryLinked (strayUpdate ++ [.confirm allOk]) w ∧
    readMetadata w.board.flash.image = some m ∧ m.activeSlot = Slot.b.byte ∧ m.pendingVerify = 0 ∧
    Stray w.applied .b w.board.flash.image := by
  obtain ⟨f, ota, applied, m, hrun, hr, ha, -, hstray, hp⟩ := factory_strayUpdate
  rcases otaConfirm_cases .a allOk (s := ⟨f, ota⟩) (.inl hp) with
    ⟨-, h⟩ | ⟨-, -, -, h, -⟩ | ⟨g, he, -, -, hg, hs⟩
  · exact absurd h (by simp [allOk])
  · exact absurd h (by simp [allOk])
  have hstep : linkedBoards.step ⟨⟨f, .app .a ota⟩, applied⟩ (.confirm allOk)
      ⟨⟨g, .app .a { ota with status := ota.status.confirmed }⟩, applied⟩ := by
    show some (LinkedBoard.mk ⟨(otaConfirm .a allOk ⟨f, ota⟩).flash,
      .app .a (otaConfirm .a allOk ⟨f, ota⟩).ota⟩ applied) = _
    rw [he]
  rw [currentRecord_some hr] at hg
  refine ⟨_, _, (hrun.mono fun _ _ _ => trivial).append (.cons trivial hstep (.nil _)),
    hg, ha, rfl, ?_⟩
  exact ⟨hstray.1, hstray.2.congr (hs.slot _)⟩

end PicoBLE.Ota
