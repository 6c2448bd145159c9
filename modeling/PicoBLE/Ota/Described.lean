import PicoBLE.Ota.Integrity
import PicoBLE.Ota.Rollback

/-!
# The record describes the slots

The record keeps, for each slot, the size and the digest of the image that was
applied there. `ota_apply` writes them, the other updates copy them, and the
bootloader never looks at them, so they are right as long as the slot is.

A slot changes when the other one's application stages an image there, and the
record learns of it only with the next `ota_apply`. From the first erase of
`ota_begin` to then the record describes an image that is gone, unless it said
that there was none.
-/

namespace PicoBLE.Ota

open NorFlash
open PicoBLE.Bootloader

/-- What the record says of the slots is true of them. -/
def Describes (f : Image) (m : OtaMetadata) : Prop :=
  ∀ s, m.imageSize.get s ≠ 0 → (m.imageSize.get s).toNat ≤ otaSlotSize ∧
    Fips180.sha256 (read s.offset (m.imageSize.get s).toNat f) = (m.imageSha256.get s).1

/-- A readable record describes the slots. -/
def Described (f : Image) : Prop := ∀ m, readMetadata f = some m → Describes f m

/-- Its flash operations succeed. -/
def Event.Successful : Event → Prop
  | .reset => True
  | .boot power => power = allOk
  | .init ok | .apply ok | .confirm ok => ok = allOk
  | .call (.begin _ ok) | .call (.write _ _ ok) | .call (.finalize ok) => ok = allOk
  | .call .abort => True

/-- Runs of a board on which flash operations succeed, from before the first record. -/
def flawless : LTS Board Event where
  init b := b.cpu = .bootloader ∧ readMetadata b.flash.image = none
  step b e b' := e.Successful ∧ b.step e = some b'

/-- An `ota_begin` that gets to its erase loop finds a record without an image in
the staging slot. -/
def Undescribed (b : Board) : Event → Prop
  | .call (.begin n _) => ∀ slot ota m, b.cpu = .app slot ota →
      ota.status.updateInProgress = false → n ≤ otaSlotSize →
      readMetadata b.flash.image = some m → m.imageSize.get slot.other = 0
  | _ => True

/-! ## Records with the same images -/

/-- Two records that say the same of the slots. -/
def SameImages (m m' : OtaMetadata) : Prop :=
  m'.imageSize = m.imageSize ∧ m'.imageSha256 = m.imageSha256

theorem Describes.congr {f g : Image} {m m' : OtaMetadata} (h : Describes f m)
    (hm : SameImages m m') (hs : ∀ s, m.imageSize.get s ≠ 0 → SameSlot s f g) : Describes g m' := by
  intro s hne
  rw [hm.1] at hne ⊢
  rw [hm.2]
  obtain ⟨hle, hsha⟩ := h s hne
  refine ⟨hle, ?_⟩
  rw [read_congr fun i hi => hs s hne i (by omega)]
  exact hsha

theorem describes_fresh (slot : Slot) (f : Image) : Describes f (freshRecord slot) := by
  intro s hne
  exact absurd (by cases s <;> rfl) hne

theorem described_some {f : Image} {m : OtaMetadata} (hr : readMetadata f = some m)
    (h : Describes f m) : Described f := by
  intro m' hm'
  obtain rfl := Option.some.inj (hr.symm.trans hm')
  exact h

theorem described_none {f : Image} (hr : readMetadata f = none) : Described f := by
  intro m hm
  exact absurd (hr.symm.trans hm) (by simp)

/-- The record an update starts from describes the slots if the stored one does. -/
theorem Described.current {f : Image} (h : Described f) (slot : Slot) :
    Describes f (currentRecord slot f) := by
  cases hr : readMetadata f with
  | none => rw [currentRecord_none hr]; exact describes_fresh slot f
  | some m => rw [currentRecord_some hr]; exact h m hr

theorem sameImages_confirm (m : OtaMetadata) :
    SameImages m { confirmMutator m with crc32 := 0 } := ⟨rfl, rfl⟩

/-- What `apply_mutator` puts on record, when it is true of the staging slot. -/
theorem Describes.apply {f : Image} {m : OtaMetadata} {st : OtaStatus} (h : Describes f m)
    (hle : st.bytesWritten ≤ otaSlotSize)
    (hdig : Fips180.sha256 (read st.stagingSlot.offset st.bytesWritten f) = st.computedSha256.1) :
    Describes f { applyMutator st m with crc32 := 0 } := by
  have hsizes : ({ applyMutator st m with crc32 := 0 } : OtaMetadata).imageSize
      = m.imageSize.set st.stagingSlot (UInt32.ofNat st.bytesWritten) := rfl
  have hshas : ({ applyMutator st m with crc32 := 0 } : OtaMetadata).imageSha256
      = m.imageSha256.set st.stagingSlot st.computedSha256 := rfl
  intro t hne
  rw [hsizes] at hne ⊢
  rw [hshas]
  rcases Slot.eq_or_other st.stagingSlot t with rfl | rfl
  · -- the slot just staged
    have hS : otaSlotSize = 786432 := rfl
    have hsize : (UInt32.ofNat st.bytesWritten).toNat = st.bytesWritten := by
      rw [UInt32.toNat_ofNat']
      exact Nat.mod_eq_of_lt (by omega)
    rw [PerSlot.get_set_self, PerSlot.get_set_self, hsize]
    exact ⟨hle, hdig⟩
  · -- the running slot keeps its entry
    rw [PerSlot.get_set_other] at hne ⊢
    rw [PerSlot.get_set_other]
    exact h _ hne

/-! ## The bootloader -/

section Boot

variable {f : Flash} {m : OtaMetadata}

/-- A write that goes on with the record in place. -/
theorem writeThen_images {next : Flash → Flash × Boot} (hm : m.magic = otaMetaMagic)
    (hv : m.version = otaMetaVersion)
    (hnext : ∀ g : Flash, readMetadata g.image = some { m with crc32 := 0 } →
      ∃ m', readMetadata (next g).1.image = some m' ∧ SameImages m m' ∧
        SameSlots g.image (next g).1.image) :
    ∃ m', readMetadata (writeThen allOk m f next).1.image = some m' ∧ SameImages m m' ∧
      SameSlots f.image (writeThen allOk m f next).1.image := by
  obtain ⟨g, he, hr, hs⟩ := writeThen_ok allOk m f next hm hv rfl rfl
  obtain ⟨m', hr', hm', hs'⟩ := hnext g hr
  rw [he]
  exact ⟨m', hr', hm', hs.trans hs'⟩

theorem enterActive_images (hr : readMetadata f.image = some m) :
    ∃ m', readMetadata (enterActive allOk m f).1.image = some m' ∧ SameImages m m' ∧
      SameSlots f.image (enterActive allOk m f).1.image := by
  obtain ⟨hm, hver, -⟩ := readMetadata_magic hr
  unfold enterActive
  dsimp only
  split
  · split
    · exact writeThen_images (m := flipped m) hm hver fun g hg =>
        ⟨_, hg, ⟨rfl, rfl⟩, SameOutside.refl _ _ _⟩
    · exact ⟨m, hr, ⟨rfl, rfl⟩, SameOutside.refl _ _ _⟩
  · exact ⟨m, hr, ⟨rfl, rfl⟩, SameOutside.refl _ _ _⟩

/-- **The bootloader keeps what the record says of the slots**, and the slots. -/
theorem main_images (hr : readMetadata f.image = some m) :
    ∃ m', readMetadata (main allOk f).1.image = some m' ∧ SameImages m m' ∧
      SameSlots f.image (main allOk f).1.image := by
  obtain ⟨hm, hver, hcrc⟩ := readMetadata_magic hr
  by_cases hp : m.pendingVerify = 0
  · rw [main_settled hr hp]
    exact enterActive_images hr
  · by_cases hn : otaMaxBootAttempts ≤ m.bootAttempts
    · rw [main_rollback hr hp hn]
      exact writeThen_images (m := flipped m) hm hver fun g hg =>
        ⟨_, hg, ⟨rfl, rfl⟩, SameOutside.refl _ _ _⟩
    · rw [main_attempt hr hp hn]
      refine writeThen_images (m := { m with bootAttempts := m.bootAttempts + 1 }) hm hver ?_
      intro g hg
      rw [OtaMetadata.clear_crc32 (by exact hcrc)] at hg
      exact enterActive_images hg

theorem described_main (h : Described f.image) : Described (main allOk f).1.image := by
  cases hr : readMetadata f.image with
  | none =>
    cases hv : slotLooksValid .a f.image with
    | false => rw [main_nothing hr hv]; exact h
    | true =>
      obtain ⟨g, he, hg, -⟩ := boot_noRecord hr hv
      rw [he]
      exact described_some hg (describes_fresh .a _)
  | some m =>
    obtain ⟨m', hr', hm, hs⟩ := main_images hr
    exact described_some hr' ((h m hr).congr hm fun s _ => hs.slot s)

end Boot

/-! ## The application -/

/-- What holds of the application of `slot`: a transfer has lost nothing and the
record says nothing of its slot, and a ready image hashes to its digest. -/
structure InOrder (slot : Slot) (s : App) : Prop where
  other : s.ota.status.stagingSlot = slot.other
  transfer : s.ota.status.updateInProgress = true → (∃ acc, Receiving s acc acc) ∧
    ∀ m, readMetadata s.flash.image = some m → m.imageSize.get slot.other = 0
  ready : s.ota.status.imageReady = true → s.ota.status.bytesWritten ≤ otaSlotSize ∧ DigestOfImage s

section App

variable {slot : Slot} {s : App}

theorem InOrder.tracked (h : InOrder slot s) : Tracked s := by
  intro hp
  obtain ⟨⟨acc, hrec⟩, -⟩ := h.transfer hp
  exact ⟨acc, acc, hrec⟩

theorem InOrder.base (h : InOrder slot s) : s.base = slot.other.offset :=
  congrArg Slot.offset h.other

/-- A change of the staging slot that the record says nothing of. -/
theorem Described.staging {f g : Image} (h : Described f)
    (hout : SameOutside slot.other.offset otaSlotSize f g)
    (hz : ∀ m, readMetadata f = some m → m.imageSize.get slot.other = 0) : Described g := by
  intro m hm
  rw [readMetadata_sameOutside hout] at hm
  refine (h m hm).congr ⟨rfl, rfl⟩ fun t hne => ?_
  rcases Slot.eq_or_other slot t with rfl | rfl
  · have hother := sameSlot_other hout
    rwa [Slot.other_other] at hother
  · exact absurd (hz m hm) hne

/-- `ota_begin`, when the record says nothing of the staging slot or it fails early. -/
theorem inOrder_begin (h : InOrder slot s) (hd : Described s.flash.image) {n : Nat}
    (hz : s.ota.status.updateInProgress = false → n ≤ otaSlotSize →
      ∀ m, readMetadata s.flash.image = some m → m.imageSize.get slot.other = 0) :
    InOrder slot (otaBegin allOk n s).1 ∧ Described (otaBegin allOk n s).1.flash.image := by
  have hout := run_sameOutside h.tracked (.begin n allOk)
  rw [h.base] at hout
  change SameOutside _ _ _ (otaBegin allOk n s).1.flash.image at hout
  rcases otaBegin_cases allOk n s with ⟨r, -, he, -⟩ | ⟨-, -, f, hf, -⟩ | ⟨hidle, hn, f, hf, he⟩
  · rw [he]; exact ⟨h, hd⟩
  · -- the erase loop cannot fail
    have hall :=
      (eraseSectors_ok allOk s.ota.status.stagingSlot.offset otaSlotSectors 0 s.flash).mpr
      fun _ _ _ => rfl
    rw [hf] at hall
    exact absurd hall Bool.false_ne_true
  · rw [he] at hout ⊢
    refine ⟨⟨h.other, fun _ => ⟨⟨[], receiving_begun hn hf⟩, fun m hm => ?_⟩,
      fun hr => absurd hr Bool.false_ne_true⟩, hd.staging hout (hz hidle hn)⟩
    rw [readMetadata_sameOutside hout] at hm
    exact hz hidle hn m hm

theorem inOrder_write (h : InOrder slot s) (hd : Described s.flash.image) (offset : Nat)
    (data : Option Chunk) :
    InOrder slot (otaWrite allOk offset (data.map Subtype.val) s).1 ∧
      Described (otaWrite allOk offset (data.map Subtype.val) s).1.flash.image := by
  have hout := run_sameOutside h.tracked (.write offset data allOk)
  rw [h.base] at hout
  change SameOutside _ _ _ (otaWrite allOk offset (data.map Subtype.val) s).1.flash.image at hout
  cases data with
  | none =>
    obtain ⟨r, -, he⟩ := otaWrite_none allOk offset s
    rw [Option.map_none, he]
    exact ⟨h, hd⟩
  | some c =>
    rw [Option.map_some] at hout ⊢
    by_cases hacc : s.ota.status.Accepts offset c.1
    · obtain ⟨⟨acc, hrec⟩, hz⟩ := h.transfer hacc.1
      obtain ⟨done, -, hall, hrec'⟩ := hrec.wrote hacc c.2 allOk
      rw [hall (writePages_ok (fun _ => rfl) _ _ _ _)] at hrec'
      rw [otaWrite_accepted hacc] at hout ⊢
      refine ⟨⟨h.other, fun _ => ⟨⟨_, hrec'⟩, fun m hm => ?_⟩,
        fun hr => absurd (hrec'.notReady.symm.trans hr) Bool.false_ne_true⟩, hd.staging hout hz⟩
      rw [readMetadata_sameOutside hout] at hm
      exact hz m hm
    · obtain ⟨r, -, he⟩ := otaWrite_rejected hacc allOk
      rw [he]
      exact ⟨h, hd⟩

theorem inOrder_finalize (h : InOrder slot s) (hd : Described s.flash.image) :
    InOrder slot (otaFinalize allOk s).1 ∧ Described (otaFinalize allOk s).1.flash.image := by
  have hout := run_sameOutside h.tracked (.finalize allOk)
  rw [h.base] at hout
  change SameOutside _ _ _ (otaFinalize allOk s).1.flash.image at hout
  cases hp : s.ota.status.updateInProgress with
  | false => rw [otaFinalize_idle hp]; exact ⟨h, hd⟩
  | true =>
    obtain ⟨⟨acc, hrec⟩, hz⟩ := h.transfer hp
    obtain ⟨p, he, hslot, hsha⟩ := hrec.finalize_ok allOk rfl
    rw [he] at hout ⊢
    refine ⟨⟨h.other, fun hin => absurd hin Bool.false_ne_true, fun _ => ⟨?_, ?_⟩⟩,
      hd.staging hout hz⟩
    · show s.ota.status.bytesWritten ≤ otaSlotSize
      rw [hrec.count]; exact hrec.fits
    · exact digestOfImage_finalized hrec (hrec.count.trans hrec.staged.length) hslot hsha

theorem inOrder_abort (h : InOrder slot s) (hd : Described s.flash.image) :
    InOrder slot (otaAbort s).1 ∧ Described (otaAbort s).1.flash.image := by
  cases hp : s.ota.status.updateInProgress with
  | false => rw [otaAbort_nothing hp]; exact ⟨h, hd⟩
  | true =>
    obtain ⟨hidle, hready⟩ := otaAbort_idle s hp
    have hflash : (otaAbort s).1.flash = s.flash := by
      unfold otaAbort; rw [if_neg (not_not.mpr hp)]
    refine ⟨⟨(run_stagingSlot .abort s).trans h.other,
      fun hin => absurd (hidle.symm.trans hin) Bool.false_ne_true,
      fun hr => absurd (hready.symm.trans hr) Bool.false_ne_true⟩, ?_⟩
    rw [hflash]
    exact hd

theorem described_init (h : Described s.flash.image) :
    Described (otaInit slot allOk s).flash.image := by
  cases hr : readMetadata s.flash.image with
  | some m => rw [otaInit_some hr]; exact h
  | none =>
    unfold otaInit
    rw [hr]
    rcases writeMetadata_cases allOk (freshRecord slot) s.flash with
      ⟨h0, -⟩ | ⟨-, h1, -⟩ | ⟨-, -, f', he, hr', -⟩
    · exact absurd h0 (by simp [allOk])
    · exact absurd h1 (by simp [allOk])
    · dsimp only
      rw [he]
      exact described_some (hr' rfl rfl) (describes_fresh slot _)

theorem inOrder_init (slot : Slot) (ok : Nat → Bool) (s : App) :
    InOrder slot (otaInit slot ok s) := by
  obtain ⟨hidle, hready⟩ := otaInit_idle slot ok s
  refine ⟨?_, fun hp => absurd (hidle.symm.trans hp) Bool.false_ne_true,
    fun hr => absurd (hready.symm.trans hr) Bool.false_ne_true⟩
  unfold otaInit
  dsimp only
  split <;> rfl

/-- A new record that says the same of the slots. -/
theorem InOrder.update (h : InOrder slot s) {f : Flash} {m : OtaMetadata} {pending : Bool}
    {attempts : UInt8} (hs : SameSlots s.flash.image f.image) (hr : readMetadata f.image = some m)
    (hm : SameImages (currentRecord slot s.flash.image) m) :
    InOrder slot { flash := f, ota := { s.ota with status := { s.ota.status with
      pendingVerify := pending, bootAttempts := attempts } } } := by
  have hslot : ∀ i, i < otaSlotSize → f.image (s.base + i) = s.flash.image (s.base + i) := by
    intro i hi
    rw [h.base]
    exact hs.slot slot.other i hi
  refine ⟨h.other, fun hp => ?_, fun hready => ?_⟩
  · obtain ⟨⟨acc, hrec⟩, hz⟩ := h.transfer hp
    refine ⟨⟨acc, hrec.update hslot⟩, fun m' hm' => ?_⟩
    obtain rfl := Option.some.inj (hr.symm.trans hm')
    rw [hm.1]
    cases hold : readMetadata s.flash.image with
    | none => rw [currentRecord_none hold]; cases slot <;> rfl
    | some old => rw [currentRecord_some hold]; exact hz old hold
  · obtain ⟨hle, hdig⟩ := h.ready hready
    refine ⟨hle, ?_⟩
    unfold DigestOfImage at hdig ⊢
    rw [← hdig]
    exact congrArg _ (read_congr fun i hi => hslot i (Nat.lt_of_lt_of_le hi hle))

theorem inOrder_confirm (h : InOrder slot s) (hd : Described s.flash.image) :
    InOrder slot (otaConfirm slot allOk s) ∧ Described (otaConfirm slot allOk s).flash.image := by
  by_cases hun : s.ota.status.Unconfirmed
  · rcases otaConfirm_cases slot allOk hun with ⟨-, h0⟩ | ⟨-, -, -, h1, -⟩ | ⟨f, he, -, -, hr, hs⟩
    · exact absurd h0 (by simp [allOk])
    · exact absurd h1 (by simp [allOk])
    · rw [he]
      have hsame := sameImages_confirm (currentRecord slot s.flash.image)
      refine ⟨h.update hs hr hsame, described_some hr ?_⟩
      exact (hd.current slot).congr hsame fun t _ => hs.slot t
  · rw [otaConfirm_nothing hun]
    exact ⟨h, hd⟩

/-- **`ota_apply` puts the staged image on record.** -/
theorem described_apply (h : InOrder slot s) (hd : Described s.flash.image) :
    Described (otaApply slot allOk s).1.flash.image := by
  cases hready : s.ota.status.imageReady with
  | false => rw [otaApply_noImage hready]; exact hd
  | true =>
    rcases otaApply_cases slot allOk hready with ⟨-, h0⟩ | ⟨-, -, -, h1, -⟩ | ⟨f, he, -, -, hr, hs⟩
    · exact absurd h0 (by simp [allOk])
    · exact absurd h1 (by simp [allOk])
    · rw [he]
      obtain ⟨hle, hdig⟩ := h.ready hready
      have hcur := (hd.current slot).congr ⟨rfl, rfl⟩ fun t _ => hs.slot t
      refine described_some hr (hcur.apply hle ?_)
      rw [read_congr fun i hi => hs.slot s.ota.status.stagingSlot i (Nat.lt_of_lt_of_le hi hle)]
      exact hdig

end App

/-! ## Every run -/

/-- What successful events maintain. -/
structure Orderly (b : Board) : Prop where
  record : Described b.flash.image
  app : ∀ slot ota, b.cpu = .app slot ota → InOrder slot ⟨b.flash, ota⟩

theorem orderly_quiet {f : Flash} {cpu : Cpu} (h : Described f.image)
    (hc : ∀ slot ota, cpu ≠ .app slot ota) : Orderly ⟨f, cpu⟩ :=
  ⟨h, fun slot ota he => absurd he (hc slot ota)⟩

theorem orderly_app {slot : Slot} {s : App} (h : InOrder slot s ∧ Described s.flash.image) :
    Orderly ⟨s.flash, .app slot s.ota⟩ := by
  refine ⟨h.2, fun slot' ota' he => ?_⟩
  obtain ⟨rfl, rfl⟩ := Cpu.app.inj he
  exact h.1

theorem orderly_step {b b' : Board} {e : Event} (h : Orderly b) (hun : Undescribed b e)
    (hok : e.Successful) (hs : b.step e = some b') : Orderly b' := by
  rcases Board.step_cases hs with ⟨-, rfl⟩ | ⟨power, rfl, hc, rfl⟩ | ⟨ok, slot, rfl, hc, rfl⟩ |
    ⟨c, slot, ota, rfl, hc, rfl⟩ | ⟨ok, slot, ota, a, r, rfl, hc, ha, rfl⟩ |
    ⟨ok, slot, ota, a, rfl, hc, ha, rfl⟩ | ⟨ok, slot, ota, rfl, hc, rfl⟩
  · exact orderly_quiet h.record fun _ _ => by simp
  · obtain rfl : power = allOk := hok
    refine orderly_quiet (described_main h.record) fun slot ota => ?_
    cases (main allOk b.flash).2 <;> simp [Cpu.afterBoot]
  · obtain rfl : ok = allOk := hok
    exact orderly_app ⟨inOrder_init slot allOk _, described_init h.record⟩
  · have hin := h.app slot ota hc
    refine orderly_app ?_
    cases c with
    | begin n ok =>
      obtain rfl : ok = allOk := hok
      exact inOrder_begin hin h.record fun hidle hn m hm => hun slot ota m hc hidle hn hm
    | write offset data ok =>
      obtain rfl : ok = allOk := hok
      exact inOrder_write hin h.record offset data
    | finalize ok =>
      obtain rfl : ok = allOk := hok
      exact inOrder_finalize hin h.record
    | abort => exact inOrder_abort hin h.record
  · -- an `ota_apply` that returns has found no image
    obtain rfl : ok = allOk := hok
    have hin := h.app slot ota hc
    obtain ⟨hno, rfl | ⟨hready, -⟩⟩ := otaApply_returned ha
    · exact orderly_app ⟨hin, h.record⟩
    · exact absurd ⟨hready, rfl, rfl⟩ hno
  · obtain rfl : ok = allOk := hok
    have hd := described_apply (h.app slot ota hc) h.record
    rw [ha] at hd
    exact orderly_quiet hd fun _ _ => by simp
  · obtain rfl : ok = allOk := hok
    exact orderly_app (inOrder_confirm (h.app slot ota hc) h.record)

theorem orderly_reachable {b : Board} (h : flawless.ReachableWhen Undescribed b) : Orderly b := by
  refine h.inv ?_ ?_
  · rintro b ⟨hcpu, hr⟩
    refine ⟨described_none hr, fun slot ota hc => ?_⟩
    rw [hcpu] at hc
    exact absurd hc (by simp)
  · rintro b e b' hb hun ⟨hok, hs⟩
    exact orderly_step hb hun hok hs

/-- **The record describes the slots**, as long as no `ota_begin` erases a slot
that it says something of. -/
theorem record_describes {b : Board} (h : flawless.ReachableWhen Undescribed b) {m : OtaMetadata}
    (hr : readMetadata b.flash.image = some m) (s : Slot) (hs : m.imageSize.get s ≠ 0) :
    Fips180.sha256 (read s.offset (m.imageSize.get s).toNat b.flash.image)
      = (m.imageSha256.get s).1 :=
  ((orderly_reachable h).record m hr s hs).2

/-! ## A run that describes an image, and one that loses it -/

/-- Transfer calls, while the record says nothing of the staging slot. -/
theorem flawless_calls {slot : Slot} {f : Flash} {ota : OtaState} (ht : Tracked ⟨f, ota⟩)
    (hst : ota.status.stagingSlot = slot.other)
    (hz : ∀ m, readMetadata f.image = some m → m.imageSize.get slot.other = 0) (calls : List Call)
    (hok : ∀ c ∈ calls, (Event.call c).Successful) :
    flawless.Runs Undescribed ⟨f, .app slot ota⟩ (calls.map .call)
      ⟨(runCalls calls ⟨f, ota⟩).flash, .app slot (runCalls calls ⟨f, ota⟩).ota⟩ := by
  induction calls generalizing f ota with
  | nil => exact .nil _
  | cons c calls ih =>
    have hout := run_sameOutside ht c
    rw [App.base, hst] at hout
    refine .cons ?_ ⟨hok c List.mem_cons_self, rfl⟩ (ih (tracked_step ht c)
      ((run_stagingSlot c _).trans hst) (fun m hm => ?_)
      fun c' hc' => hok c' (List.mem_cons_of_mem _ hc'))
    · cases c with
      | begin n ok =>
        intro slot' ota' m hc _ _ hm
        obtain ⟨rfl, rfl⟩ := Cpu.app.inj hc
        exact hz m hm
      | write _ _ _ => trivial
      | finalize _ => trivial
      | abort => trivial
    · rw [readMetadata_sameOutside hout] at hm
      exact hz m hm

/-- A first image is staged and applied. -/
theorem flawless_install {slot : Slot} {f : Flash} {ota : OtaState} {m : OtaMetadata}
    (hidle : ota.status.updateInProgress = false) (hst : ota.status.stagingSlot = slot.other)
    (hr : readMetadata f.image = some m) (hz : m.imageSize.get slot.other = 0) {img : Chunk}
    (hne : img.1 ≠ []) (hfit : img.1.length ≤ otaSlotSize) :
    ∃ f' m', flawless.Runs Undescribed ⟨f, .app slot ota⟩
        ((stageCalls img).map .call ++ [.apply allOk]) ⟨f', .bootloader⟩ ∧
      readMetadata f'.image = some m' ∧ m'.activeSlot = slot.other.byte ∧ m'.pendingVerify = 1 ∧
      m'.bootAttempts = 0 ∧ m'.imageSize.get slot.other = UInt32.ofNat img.1.length ∧
      (m'.imageSha256.get slot.other).1 = Fips180.sha256 img.1 ∧
      SlotHolds slot.other.offset img.1 f'.image ∧ SameSlot slot f.image f'.image := by
  have ht : Tracked ⟨f, ota⟩ := tracked_idle hidle
  obtain ⟨⟨f₁, ota₁⟩, f₂, hinst⟩ := install_ok (s := ⟨f, ota⟩) hidle hst hne hfit
  obtain ⟨m', hr', ha, hp, hn, hsize, hsha⟩ := hinst.record
  have hstaged := flawless_calls ht hst (fun m' hm' => by
    obtain rfl := Option.some.inj (hr.symm.trans hm')
    exact hz) (stageCalls img) (by simp [stageCalls, Event.Successful])
  rw [hinst.calls] at hstaged
  have hstep : flawless.step ⟨f₁, .app slot ota₁⟩ (.apply allOk) ⟨f₂, .bootloader⟩ := by
    refine ⟨rfl, ?_⟩
    simp only [Board.step, hinst.apply]
  exact ⟨f₂, m', hstaged.append (.cons trivial hstep (.nil _)), hr', ha, hp, hn, hsize, hsha,
    hinst.holds, hinst.same⟩

/-- A slot that has been entered comes up. -/
theorem flawless_init {f : Flash} {m : OtaMetadata} (slot : Slot)
    (hr : readMetadata f.image = some m) : ∃ ota, flawless.step ⟨f, .started slot⟩ (.init allOk)
      ⟨f, .app slot ota⟩ ∧ ota.status.updateInProgress = false ∧
      ota.status.stagingSlot = slot.other := by
  obtain ⟨ota, hup, hst, hidle, -⟩ := otaInit_up slot hr
  refine ⟨ota, ⟨rfl, ?_⟩, hidle, hst⟩
  simp only [Board.step, hup]

/-- A one-byte image. -/
def oneByte : Chunk := ⟨[0], Nat.one_lt_two_pow (Nat.succ_ne_zero 30)⟩

/-- It is nothing to jump into. -/
theorem oneByte_invalid {slot : Slot} {f : Image} (h : SlotHolds slot.offset oneByte.1 f) :
    slotLooksValid slot f = false := by
  have hS : otaSlotSize = 786432 := rfl
  refine slotLooksValid_blank fun i hi => ?_
  have hread : (read slot.offset otaSlotSize f).getD (256 + i) 0 = f (slot.offset + (256 + i)) :=
    read_getD (by omega)
  rw [h, List.getD_append_right _ _ _ _ (by simp [oneByte]; omega)] at hread
  rw [Nat.add_assoc, ← hread, List.getD_eq_getElem _ _ (by simp [oneByte]; omega),
    List.getElem_replicate]

/-- The application in slot A of a factory board applies the one-byte image in slot B. -/
theorem factory_oneByte : ∃ f m, flawless.Runs Undescribed factory.board
      ([.boot allOk, .init allOk] ++ ((stageCalls oneByte).map .call ++ [.apply allOk]))
      ⟨f, .bootloader⟩ ∧
    readMetadata f.image = some m ∧ m.activeSlot = Slot.b.byte ∧ m.pendingVerify = 1 ∧
    m.bootAttempts = 0 ∧ m.imageSize.b = 1 ∧ m.imageSha256.b.1 = Fips180.sha256 [0] ∧
    slotLooksValid .a f.image = true ∧ slotLooksValid .b f.image = false := by
  have hS : otaSlotSize = 786432 := rfl
  obtain ⟨-, hr₀, -⟩ := factory_init
  have hv₀ : slotLooksValid .a factory.board.flash.image = true := bootable_programmed .a
  obtain ⟨f₁, he₁, hr₁, hs₁⟩ := boot_noRecord hr₀ hv₀
  have hboot : flawless.step factory.board (.boot allOk) ⟨f₁, .started .a⟩ := by
    refine ⟨rfl, ?_⟩
    show some (Board.mk (main allOk factory.board.flash).1
      (.afterBoot (main allOk factory.board.flash).2)) = _
    rw [he₁]
    rfl
  obtain ⟨ota, hinit, hidle, hst⟩ := flawless_init .a hr₁
  obtain ⟨f₂, m₂, hrun, hr₂, ha₂, hp₂, hn₂, hsize, hsha, hslot, hs₂⟩ :=
    @flawless_install .a _ _ _ hidle hst hr₁ rfl oneByte
      (by simp [oneByte]) (by rw [hS]; simp [oneByte])
  refine ⟨f₂, m₂, LTS.Runs.append (.cons trivial hboot (.cons trivial hinit (.nil _))) hrun,
    hr₂, ha₂, hp₂, hn₂, hsize, hsha, ?_, oneByte_invalid hslot⟩
  exact hs₂.valid_eq.trans (hs₁.valid hv₀)

theorem factory_describes : ∃ b m, flawless.ReachableWhen Undescribed b ∧
    readMetadata b.flash.image = some m ∧ m.imageSize.b = 1 ∧
    Fips180.sha256 (read Slot.b.offset (m.imageSize.get .b).toNat b.flash.image)
      = (m.imageSha256.get .b).1 := by
  obtain ⟨f, m, hrun, hr, -, -, -, hsize, -⟩ := factory_oneByte
  have hreach := hrun.reachableWhen (.init ⟨factory_init.1, factory_init.2.1⟩)
  refine ⟨_, m, hreach, hr, hsize, record_describes hreach hr .b ?_⟩
  show m.imageSize.b ≠ 0
  rw [hsize]
  decide

/-- A slot on probation that does not look valid is passed over. -/
theorem boot_fallback {f : Flash} {m : OtaMetadata} {t : Slot} (hr : readMetadata f.image = some m)
    (ha : m.activeSlot = t.byte) (hp : m.pendingVerify ≠ 0)
    (hn : ¬ otaMaxBootAttempts ≤ m.bootAttempts) (hv : slotLooksValid t f.image = false)
    (ho : slotLooksValid t.other f.image = true) : (main allOk f).2 = .jumped t.other := by
  obtain ⟨g, he, hrg, hs⟩ := main_counted hr hp hn
  have ht : Slot.ofByte m.activeSlot = t := by rw [ha, Slot.ofByte_byte]
  obtain ⟨g', he', -, -⟩ := enterActive_fallback (fun k => allOk (k + 2)) hrg ht
    (hs.valid hv) (hs.valid ho) rfl rfl
  rw [he, he']

/-- The next download to slot B erases the image, and the record still describes it. -/
theorem secondDownload_breaks : ∃ b, flawless.Runs (fun _ _ => True) factory.board
      ([.boot allOk, .init allOk] ++ ((stageCalls oneByte).map .call ++ [.apply allOk])
        ++ [.boot allOk, .init allOk, .call (.begin 0 allOk)]) b ∧
    ∃ m, readMetadata b.flash.image = some m ∧ m.imageSize.get .b ≠ 0 ∧
      Fips180.sha256 (read Slot.b.offset (m.imageSize.get .b).toNat b.flash.image)
        ≠ (m.imageSha256.get .b).1 := by
  obtain ⟨f, m, hrun, hr, ha, hp, hn, hsize, hsha, hva, hvb⟩ := factory_oneByte
  have hboot := boot_fallback hr ha (by rw [hp]; decide) (by rw [hn]; decide) hvb hva
  obtain ⟨m', hr', ⟨hsizes, hshas⟩, -⟩ := main_images hr
  -- the bootloader falls back to slot A, whose application comes up
  rcases hmain : main allOk f with ⟨g, r⟩
  rw [hmain] at hboot hr'
  dsimp only at hboot hr'
  subst hboot
  have hstep₁ : flawless.step ⟨f, .bootloader⟩ (.boot allOk) ⟨g, .started .a⟩ := by
    refine ⟨rfl, ?_⟩
    show some (Board.mk (main allOk f).1 (.afterBoot (main allOk f).2)) = _
    rw [hmain]
    rfl
  obtain ⟨ota, hstep₂, hidle, hst⟩ := flawless_init .a hr'
  have hstep₃ : flawless.step ⟨g, .app .a ota⟩ (.call (.begin 0 allOk))
      ⟨(otaBegin allOk 0 ⟨g, ota⟩).1.flash, .app .a (otaBegin allOk 0 ⟨g, ota⟩).1.ota⟩ := ⟨rfl, rfl⟩
  -- slot B is erased, the record is not
  have hout := run_sameOutside (tracked_idle (s := ⟨g, ota⟩) hidle) (.begin 0 allOk)
  rw [App.base, hst] at hout
  obtain ⟨h, hb, hrec⟩ :=
    otaBegin_receiving (otaBegin_succeeds (s := ⟨g, ota⟩) hidle (Nat.zero_le _))
  refine ⟨_, (hrun.mono fun _ _ _ => trivial).append
    (.cons trivial hstep₁ (.cons trivial hstep₂ (.cons trivial hstep₃ (.nil _)))), m', ?_, ?_, ?_⟩
  · exact (readMetadata_sameOutside hout).trans hr'
  · show m'.imageSize.b ≠ 0
    rw [hsizes, hsize]
    decide
  · have hblank := hrec.staged.blank
    have hbase : ((⟨g, ota⟩ : App).begun 0 h).base = Slot.b.offset := congrArg Slot.offset hst
    rw [hbase] at hblank
    have hall :
        Blank (Slot.b.offset + 0) (otaSlotSize - 0) ((⟨g, ota⟩ : App).begun 0 h).flash.image :=
      hblank
    have hone : Blank Slot.b.offset (UInt32.toNat 1) ((⟨g, ota⟩ : App).begun 0 h).flash.image :=
      hall.mono (Nat.le_refl _)
        (Nat.add_le_add_left (by rw [show otaSlotSize = 786432 from rfl]; decide) _)
    have hread :
        read Slot.b.offset (m'.imageSize.get .b).toNat (otaBegin allOk 0 ⟨g, ota⟩).1.flash.image
        = [0xFF] := by
      show read _ m'.imageSize.b.toNat _ = _
      rw [hsizes, hsize, hb, read_blank hone]
      rfl
    show _ ≠ m'.imageSha256.b.1
    rw [hread, hshas, hsha]
    decide +kernel

end PicoBLE.Ota
