import Mathlib.Data.Set.Insert
import PicoBLE.Ota.Streaming
import PicoBLE.Ota.System

/-!
# The rollback target

While a slot is on probation the other slot is what the bootloader goes back
to. For that it has to hold what it held when probation started, and that has
to be an image somebody has vouched for: the factory image or one that was
confirmed.

The board does not know which images those are, so the world below records it:
`trusted` collects the factory image and every image confirmed so far, `kept`
is what the other slot held at the last `ota_apply`.

Two things break the promise. `ota_begin` never asks whether the running slot
is on probation, and erases the staging slot, which is the rollback target. And
without a readable record the bootloader enters slot A as if it were confirmed,
whatever is staged there. `Careful` says that neither happens.
-/

namespace PicoBLE.Ota

open NorFlash
open PicoBLE.Bootloader

/-! ## The world -/

/-- The board, and what its history has to say about images. -/
structure World where
  board : Board
  /-- The factory image and the confirmed ones. -/
  trusted : Set (List UInt8)
  /-- What the other slot held at the last `ota_apply`. -/
  kept : List UInt8

/-- The images trusted after an event: confirming trusts the running one. -/
def trustedAfter (w : World) : Event → Set (List UInt8)
  | .confirm ok =>
    match w.board.cpu with
    | .app slot ota =>
      { x | x ∈ w.trusted ∨ (ota.status.Unconfirmed ∧ ok 0 = true ∧ ok 1 = true ∧
        x = content slot w.board.flash.image) }
    | _ => w.trusted
  | _ => w.trusted

/-- What is kept after an event: applying an image keeps the slot beside it. -/
def keptAfter (w : World) : Event → List UInt8
  | .apply ok =>
    match w.board.cpu with
    | .app _ ota =>
      if ota.status.imageReady = true ∧ ok 0 = true ∧ ok 1 = true then
        content ota.status.stagingSlot.other w.board.flash.image
      else w.kept
    | _ => w.kept
  | _ => w.kept

/-- One event in the world. -/
def World.step (w : World) (e : Event) : Option World :=
  (w.board.step e).map fun b => ⟨b, trustedAfter w e, keptAfter w e⟩

/-- Runs start from the bootloader, with no record yet and the factory image in slot A. -/
def otaSystem : LTS World Event :=
  LTS.ofFun
    (fun w => w.board.cpu = .bootloader ∧ readMetadata w.board.flash.image = none ∧
      w.trusted = {content .a w.board.flash.image})
    World.step

theorem World.step_eq {w w' : World} {e : Event} (h : w.step e = some w') :
    w.board.step e = some w'.board ∧ w'.trusted = trustedAfter w e ∧ w'.kept = keptAfter w e := by
  obtain ⟨b, hb, rfl⟩ := Option.map_eq_some_iff.mp h
  exact ⟨hb, rfl, rfl⟩

section Step

variable {T : Set (List UInt8)} {K : List UInt8} {f : Flash} (slot : Slot) (ota : OtaState)

theorem step_boot {power : Nat → Bool} {f' : Flash} {r : Boot} (h : main power f = (f', r)) :
    otaSystem.step ⟨⟨f, .bootloader⟩, T, K⟩ (.boot power) ⟨⟨f', .afterBoot r⟩, T, K⟩ := by
  show some (World.mk ⟨(main power f).1, .afterBoot (main power f).2⟩ T K) = _
  rw [h]

theorem step_init (ok : Nat → Bool) :
    otaSystem.step ⟨⟨f, .started slot⟩, T, K⟩ (.init ok)
      ⟨⟨(otaInit slot ok ⟨f, OtaState.zero⟩).flash,
        .app slot (otaInit slot ok ⟨f, OtaState.zero⟩).ota⟩,
        T, K⟩ := rfl

theorem step_call (c : Call) :
    otaSystem.step ⟨⟨f, .app slot ota⟩, T, K⟩ (.call c)
      ⟨⟨(c.run ⟨f, ota⟩).1.flash, .app slot (c.run ⟨f, ota⟩).1.ota⟩, T, K⟩ := rfl

variable {slot} {ota} in
theorem step_apply {ok : Nat → Bool} {a : App} (h : otaApply slot ok ⟨f, ota⟩ = (a, .rebooted)) :
    otaSystem.step ⟨⟨f, .app slot ota⟩, T, K⟩ (.apply ok)
      ⟨⟨a.flash, .bootloader⟩, T, keptAfter ⟨⟨f, .app slot ota⟩, T, K⟩ (.apply ok)⟩ := by
  show (Board.step ⟨f, .app slot ota⟩ (.apply ok)).map _ = _
  simp only [Board.step, h, Option.map_some]
  rfl

end Step

/-- **The promise.** During probation of slot `t`, the other slot is what it was,
and trusted. -/
def RollbackTarget (w : World) : Prop :=
  ∀ m, readMetadata w.board.flash.image = some m → m.pendingVerify ≠ 0 →
    ∃ t : Slot, m.activeSlot = t.byte ∧
      content t.other w.board.flash.image = w.kept ∧
      content t.other w.board.flash.image ∈ w.trusted

/-- An event that takes neither of the two ways to break it. -/
def Careful (w : World) : Event → Prop
  | .call (.begin imageSize ok) =>
    ∀ slot ota, w.board.cpu = .app slot ota → ota.status.pendingVerify = true →
      ota.status.updateInProgress = false → imageSize ≤ otaSlotSize → ok 0 = false
  | .boot _ =>
    readMetadata w.board.flash.image = none → slotLooksValid .a w.board.flash.image = true →
      content .a w.board.flash.image ∈ w.trusted
  | _ => True

/-! ## The invariant -/

/-- A slot the bootloader can fall back on. -/
def Good (trusted : Set (List UInt8)) (slot : Slot) (f : Image) : Prop :=
  content slot f ∈ trusted ∧ slotLooksValid slot f = true

theorem Good.congr {T : Set (List UInt8)} {slot : Slot} {f g : Image} (h : Good T slot f)
    (hs : SameSlot slot f g) : Good T slot g :=
  ⟨by rw [hs.content_eq]; exact h.1, by rw [hs.valid_eq]; exact h.2⟩

theorem Good.mono {T T' : Set (List UInt8)} {slot : Slot} {f : Image} (h : Good T slot f)
    (hle : T ⊆ T') : Good T' slot f :=
  ⟨hle h.1, h.2⟩

/-- A record names a good slot: the active one, or on probation the other one. -/
structure RecordFor (T : Set (List UInt8)) (K : List UInt8) (f : Image)
    (m : OtaMetadata) (t : Slot) : Prop where
  active : m.activeSlot = t.byte
  settled : m.pendingVerify = 0 → Good T t f
  probation : m.pendingVerify ≠ 0 → Good T t.other f ∧ content t.other f = K

def RecordInv (T : Set (List UInt8)) (K : List UInt8) (f : Image) : Prop :=
  ∀ m, readMetadata f = some m → ∃ t, RecordFor T K f m t

/-- What holds of whoever has the processor. -/
def CpuInv (T : Set (List UInt8)) (f : Image) : Cpu → Prop
  | .bootloader => True
  | .bootsel => True
  | .started slot =>
    slotLooksValid slot f = true ∧ ∃ m, readMetadata f = some m ∧ m.activeSlot = slot.byte
  | .app slot ota =>
    slotLooksValid slot f = true ∧ ota.status.stagingSlot = slot.other ∧
    (∀ m, readMetadata f = some m → m.activeSlot = slot.byte ∧
      (ota.status.pendingVerify = true ↔ m.pendingVerify ≠ 0)) ∧
    (ota.status.pendingVerify = false → content slot f ∈ T) ∧
    (ota.status.pendingVerify = true →
      ota.status.updateInProgress = false ∧ ota.status.imageReady = false)

structure Inv (w : World) : Prop where
  record : RecordInv w.trusted w.kept w.board.flash.image
  cpu : CpuInv w.trusted w.board.flash.image w.board.cpu
  /-- A transfer in progress has a history. -/
  tracked : ∀ slot ota, w.board.cpu = .app slot ota → Tracked ⟨w.board.flash, ota⟩

theorem recordInv_none {T : Set (List UInt8)} {K : List UInt8} {f : Image}
    (h : readMetadata f = none) : RecordInv T K f := by
  intro m hm; rw [h] at hm; exact absurd hm (by simp)

theorem recordInv_some {T : Set (List UInt8)} {K : List UInt8} {f : Image}
    {m : OtaMetadata} {t : Slot} (h : readMetadata f = some m) (hm : RecordFor T K f m t) :
    RecordInv T K f := by
  intro m' hm'
  rw [h] at hm'
  obtain rfl := Option.some.inj hm'
  exact ⟨t, hm⟩

/-- Records and slots that read the same are as good. -/
theorem RecordFor.congr {T : Set (List UInt8)} {K : List UInt8} {f g : Image}
    {m : OtaMetadata} {t : Slot} (h : RecordFor T K f m t) (hs : ∀ s, SameSlot s f g) :
    RecordFor T K g m t where
  active := h.active
  settled hp := (h.settled hp).congr (hs t)
  probation hp :=
    ⟨(h.probation hp).1.congr (hs _), by rw [(hs _).content_eq]; exact (h.probation hp).2⟩

/-- The promise is part of the invariant. -/
theorem Inv.rollbackTarget {w : World} (h : Inv w) : RollbackTarget w := by
  intro m hm hp
  obtain ⟨t, ht⟩ := h.record m hm
  obtain ⟨hgood, hkept⟩ := ht.probation hp
  exact ⟨t, ht.active, hkept, hgood.1⟩

/-! ## The bootloader -/

/-- What a run of the bootloader leaves: a record as good as before, and a slot
that looks valid under a record that names it. -/
structure BootOk (T : Set (List UInt8)) (K : List UInt8) (r : Flash × Boot) : Prop where
  record : RecordInv T K r.1.image
  entered : ∀ slot, r.2 = .jumped slot → slotLooksValid slot r.1.image = true ∧
    ∃ m, readMetadata r.1.image = some m ∧ m.activeSlot = slot.byte

section Boot

variable {T : Set (List UInt8)} {K : List UInt8} {power : Nat → Bool} {f : Flash}

/-- Writing a good record and going on. -/
theorem bootOk_writeThen {m : OtaMetadata} {t : Slot} {next : Flash → Flash × Boot}
    (hm : m.magic = otaMetaMagic) (hv : m.version = otaMetaVersion)
    (hf : RecordInv T K f.image) (hgood : RecordFor T K f.image m t)
    (hnext : ∀ f', readMetadata f'.image = some { m with crc32 := 0 } →
      RecordInv T K f'.image → SameSlots f.image f'.image → BootOk T K (next f')) :
    BootOk T K (writeThen power m f next) := by
  rcases writeThen_cases power m f next hm hv with
    ⟨f', he, rfl | ⟨hn, -⟩⟩ | ⟨f', he, hr, hs⟩
  · rw [he]; exact ⟨hf, fun _ h => absurd h (by simp)⟩
  · rw [he]; exact ⟨recordInv_none hn, fun _ h => absurd h (by simp)⟩
  · rw [he]
    have hgood' := hgood.congr hs.slot
    exact hnext f' hr (recordInv_some hr ⟨hgood'.active, hgood'.settled, hgood'.probation⟩) hs

/-- Jumping to a valid slot under a record that names it. -/
theorem bootOk_jump {m : OtaMetadata} {t : Slot} (hf : RecordInv T K f.image)
    (hr : readMetadata f.image = some m) (ha : m.activeSlot = t.byte)
    (hv : slotLooksValid t f.image = true) : BootOk T K (f, .jumped t) := by
  refine ⟨hf, fun slot h => ?_⟩
  obtain rfl : t = slot := by injection h
  exact ⟨hv, m, hr, ha⟩

theorem flipped_active {m : OtaMetadata} {t : Slot} (ha : m.activeSlot = t.byte) :
    (flipped m).activeSlot = t.other.byte := by
  show m.activeSlot ^^^ 1 = _
  rw [ha, Slot.byte_xor_one]

/-- Going back is always to a good slot. -/
theorem recordFor_flipped {m : OtaMetadata} {t : Slot} (ha : m.activeSlot = t.byte)
    (hg : Good T t.other f.image) : RecordFor T K f.image (flipped m) t.other where
  active := flipped_active ha
  settled _ := hg
  probation h := absurd rfl h

/-- The last part of `main`, on a good record. -/
theorem bootOk_enterActive {m : OtaMetadata} {t : Slot} (hr : readMetadata f.image = some m)
    (hm : m.magic = otaMetaMagic) (hv : m.version = otaMetaVersion)
    (hgood : RecordFor T K f.image m t) : BootOk T K (enterActive power m f) := by
  have hslot : Slot.ofByte m.activeSlot = t := by rw [hgood.active, Slot.ofByte_byte]
  have hf := recordInv_some hr hgood
  cases hvt : slotLooksValid t f.image with
  | true => rw [enterActive_valid hslot hvt]; exact bootOk_jump hf hr hgood.active hvt
  | false =>
    cases hvo : slotLooksValid t.other f.image with
    | false => rw [enterActive_none hslot hvt hvo]; exact ⟨hf, fun _ h => absurd h (by simp)⟩
    | true =>
      -- only a slot on probation can have stopped looking valid
      have hp : m.pendingVerify ≠ 0 := fun hp =>
        absurd (hvt.symm.trans (hgood.settled hp).2) Bool.false_ne_true
      rw [enterActive_other hslot hvt hvo]
      refine bootOk_writeThen hm hv hf (recordFor_flipped hgood.active (hgood.probation hp).1) ?_
      intro f' hr' hf' hs
      rw [hs.jump hvo]
      exact bootOk_jump hf' hr' (flipped_active hgood.active) (hs.valid hvo)

theorem bootOk_main (power : Nat → Bool) (hf : RecordInv T K f.image)
    (hcare : readMetadata f.image = none → slotLooksValid .a f.image = true →
      content .a f.image ∈ T) : BootOk T K (main power f) := by
  cases hr : readMetadata f.image with
  | none =>
    cases hva : slotLooksValid .a f.image with
    | false => rw [main_nothing hr hva]; exact ⟨hf, fun _ h => absurd h (by simp)⟩
    | true =>
      rw [main_noRecord hr hva]
      refine bootOk_writeThen (t := .a) rfl rfl hf
        ⟨rfl, fun _ => ⟨hcare hr hva, hva⟩, fun h => absurd rfl h⟩ ?_
      intro f' hr' hf' hs
      rw [hs.jump hva]
      exact bootOk_jump hf' hr' rfl (hs.valid hva)
  | some m =>
    obtain ⟨hm, hv, hcrc⟩ := readMetadata_magic hr
    obtain ⟨t, hgood⟩ := hf m hr
    by_cases hp : m.pendingVerify = 0
    · rw [main_settled hr hp]; exact bootOk_enterActive hr hm hv hgood
    · by_cases ha : otaMaxBootAttempts ≤ m.bootAttempts
      · rw [main_rollback hr hp ha]
        refine bootOk_writeThen hm hv hf (recordFor_flipped hgood.active (hgood.probation hp).1) ?_
        exact fun f' _ hf' _ => ⟨hf', fun _ h => absurd h (by simp)⟩
      · rw [main_attempt hr hp ha]
        refine bootOk_writeThen (t := t) hm hv hf
          ⟨hgood.active, hgood.settled, hgood.probation⟩ ?_
        intro f' hr' _ hs
        have hgood' := hgood.congr hs.slot
        rw [OtaMetadata.clear_crc32 (by exact hcrc)] at hr'
        exact bootOk_enterActive hr' hm hv ⟨hgood'.active, hgood'.settled, hgood'.probation⟩

end Boot

/-! ## The application -/

section Application

variable {T : Set (List UInt8)} {K : List UInt8} {f : Flash} {slot : Slot} {ota : OtaState}

/-- Trusting more images does no harm. -/
theorem CpuInv.mono {T' : Set (List UInt8)} {cpu : Cpu} {g : Image} (h : CpuInv T g cpu)
    (hle : T ⊆ T') : CpuInv T' g cpu := by
  cases cpu with
  | bootloader => trivial
  | bootsel => trivial
  | started slot => exact h
  | app slot ota =>
    obtain ⟨hv, hstage, hrec, htrust, hidle⟩ := h
    exact ⟨hv, hstage, hrec, fun hp => hle (htrust hp), hidle⟩

theorem RecordInv.mono {T' : Set (List UInt8)} {g : Image} (h : RecordInv T K g) (hle : T ⊆ T') :
    RecordInv T' K g := by
  intro m hm
  obtain ⟨t, ht⟩ := h m hm
  exact ⟨t, ht.active, fun h0 => (ht.settled h0).mono hle,
    fun hp => ⟨(ht.probation hp).1.mono hle, (ht.probation hp).2⟩⟩

/-- A slot that was entered comes up with what the record says about it. -/
theorem cpuInv_init (hc : CpuInv T f.image (.started slot)) (hf : RecordInv T K f.image)
    (ok : Nat → Bool) :
    (otaInit slot ok ⟨f, OtaState.zero⟩).flash = f ∧
      CpuInv T f.image (.app slot (otaInit slot ok ⟨f, OtaState.zero⟩).ota) := by
  obtain ⟨hv, m, hr, ha⟩ := hc
  obtain ⟨t, hgood⟩ := hf m hr
  obtain rfl : t = slot := Slot.byte_inj.mp (hgood.active.symm.trans ha)
  rw [otaInit_some (s := ⟨f, OtaState.zero⟩) hr]
  refine ⟨rfl, hv, rfl, ?_, ?_, fun _ => ⟨rfl, rfl⟩⟩
  · intro m' hr'
    rw [hr] at hr'
    obtain rfl := Option.some.inj hr'
    exact ⟨ha, by simp⟩
  · intro hp
    exact (hgood.settled (by simpa using hp)).1

/-- Outside probation, a call leaves the running slot and the record alone. -/
theorem cpuInv_call (hc : CpuInv T f.image (.app slot ota)) (hf : RecordInv T K f.image)
    (ht : Tracked ⟨f, ota⟩) (c : Call)
    (hcare : ota.status.pendingVerify = true → (c.run ⟨f, ota⟩).1 = ⟨f, ota⟩) :
    RecordInv T K (c.run ⟨f, ota⟩).1.flash.image ∧
      CpuInv T (c.run ⟨f, ota⟩).1.flash.image (.app slot (c.run ⟨f, ota⟩).1.ota) := by
  cases hp : ota.status.pendingVerify with
  | true => rw [hcare hp]; exact ⟨hf, hc⟩
  | false =>
    obtain ⟨hv, hstage, hrec, htrust, -⟩ := hc
    have hout := run_sameOutside ht c
    rw [App.base, hstage] at hout
    have hread := readMetadata_sameOutside hout
    have hslot : SameSlot slot f.image (c.run ⟨f, ota⟩).1.flash.image := by
      have := sameSlot_other hout
      rwa [Slot.other_other] at this
    refine ⟨fun m hr => ?_, hslot.valid_eq.trans hv, (run_stagingSlot c _).trans hstage, ?_, ?_, ?_⟩
    · rw [hread] at hr
      obtain ⟨t, hgood⟩ := hf m hr
      obtain ⟨hactive, hpend⟩ := hrec m hr
      obtain rfl : t = slot := Slot.byte_inj.mp (hgood.active.symm.trans hactive)
      have hsettled : m.pendingVerify = 0 := by
        rw [hp] at hpend; simpa using hpend
      exact ⟨t, hactive, fun h0 => (hgood.settled h0).congr hslot, fun h => absurd hsettled h⟩
    · intro m hr
      rw [hread] at hr
      rw [run_pendingVerify]
      exact hrec m hr
    · intro _
      rw [hslot.content_eq]
      exact htrust hp
    · intro hp'
      rw [run_pendingVerify] at hp'
      exact absurd (hp.symm.trans hp') Bool.false_ne_true

/-- A failed update can only lose the record. -/
theorem cpuInv_lost {g : Image} (hc : CpuInv T f.image (.app slot ota)) (hn : readMetadata g = none)
    (hs : SameSlots f.image g) : CpuInv T g (.app slot ota) := by
  obtain ⟨hv, hstage, -, htrust, hidle⟩ := hc
  refine ⟨hs.valid hv, hstage, fun m hr => ?_, fun hp => ?_, hidle⟩
  · rw [hn] at hr; exact absurd hr (by simp)
  · rw [(hs.slot _).content_eq]; exact htrust hp

/-- The record that `ota_apply` writes keeps the running slot for going back to. -/
theorem recordFor_applied {m : OtaMetadata} (hc : CpuInv T f.image (.app slot ota))
    (hready : ota.status.imageReady = true) :
    RecordFor T (content ota.status.stagingSlot.other f.image) f.image
      { applyMutator ota.status m with crc32 := 0 } slot.other := by
  obtain ⟨hv, hstage, -, htrust, hidle⟩ := hc
  have hp : ota.status.pendingVerify = false := by
    cases hp : ota.status.pendingVerify with
    | false => rfl
    | true => exact absurd ((hidle hp).2.symm.trans hready) Bool.false_ne_true
  refine ⟨?_, fun h0 => absurd h0 (by show (1 : UInt8) ≠ 0; decide), fun _ => ?_⟩
  · show ota.status.stagingSlot.byte = _
    rw [hstage]
  · rw [hstage, Slot.other_other]
    exact ⟨⟨htrust hp, hv⟩, rfl⟩

/-- A confirmed record settles the running slot. -/
theorem recordFor_confirmed {T' : Set (List UInt8)} (hc : CpuInv T f.image (.app slot ota))
    (hT : content slot f.image ∈ T') :
    RecordFor T' K f.image { confirmMutator (currentRecord slot f.image) with crc32 := 0 }
      slot := by
  obtain ⟨hv, -, hrec, -, -⟩ := hc
  cases hr : readMetadata f.image with
  | none => rw [currentRecord_none hr]; exact ⟨rfl, fun _ => ⟨hT, hv⟩, fun h => absurd rfl h⟩
  | some m =>
    rw [currentRecord_some hr]
    exact ⟨(hrec m hr).1, fun _ => ⟨hT, hv⟩, fun h => absurd rfl h⟩

end Application

/-! ## One step -/

theorem trustedAfter_mono (w : World) (e : Event) : w.trusted ⊆ trustedAfter w e := by
  intro x hx
  unfold trustedAfter
  split
  · split
    · exact .inl hx
    · exact hx
  · exact hx

theorem inv_step {w w' : World} {e : Event} (h : Inv w) (hcare : Careful w e)
    (hw : otaSystem.step w e w') : Inv w' := by
  obtain ⟨⟨f, cpu⟩, T, K⟩ := w
  obtain ⟨b', T', K'⟩ := w'
  obtain ⟨hstep, hT, hK⟩ := World.step_eq hw
  clear hw
  obtain ⟨hrec, hcpu, htrack⟩ := h
  dsimp only at hrec hcpu htrack hstep hT hK
  rcases Board.step_cases hstep with ⟨rfl, rfl⟩ | ⟨power, rfl, rfl, rfl⟩ |
      ⟨ok, slot, rfl, rfl, rfl⟩ | ⟨c, slot, ota, rfl, rfl, rfl⟩ |
      ⟨ok, slot, ota, a, r, rfl, rfl, ha, rfl⟩ | ⟨ok, slot, ota, a, rfl, rfl, ha, rfl⟩ |
      ⟨ok, slot, ota, rfl, rfl, rfl⟩
  · -- reset
    subst hT hK
    exact ⟨hrec, trivial, fun _ _ h => nomatch h⟩
  · -- a bootloader run
    subst hT hK
    obtain ⟨hrec', hent⟩ := bootOk_main power hrec hcare
    refine ⟨hrec', ?_, fun slot ota h => ?_⟩
    · rcases hb : (main power f).2 with slot | _ | _ | _
      · obtain ⟨hv, hm⟩ := hent slot hb
        exact ⟨hv, hm⟩
      all_goals trivial
    · rcases hb : (main power f).2 with slot | _ | _ | _ <;> rw [hb] at h <;> cases h
  · -- `ota_init`
    subst hT hK
    obtain ⟨hf, hcpu'⟩ := cpuInv_init hcpu hrec ok
    rw [hf]
    refine ⟨hrec, hcpu', fun slot' ota' h => ?_⟩
    obtain ⟨rfl, rfl⟩ := Cpu.app.inj h
    exact tracked_idle (otaInit_idle _ _ _).1
  · -- a transfer call
    subst hT hK
    have ht := htrack slot ota rfl
    have hquiet : ota.status.pendingVerify = true → (c.run ⟨f, ota⟩).1 = ⟨f, ota⟩ := by
      intro hp
      have hidle := (hcpu.2.2.2.2 hp).1
      refine run_quiet hidle fun n ok hc hn => ?_
      subst hc
      exact hcare slot ota rfl hp hidle hn
    obtain ⟨hrec', hcpu'⟩ := cpuInv_call hcpu hrec ht c hquiet
    refine ⟨hrec', hcpu', fun slot' ota' h => ?_⟩
    obtain ⟨rfl, rfl⟩ := Cpu.app.inj h
    exact tracked_step ht c
  · -- an `ota_apply` that returns
    have ht := htrack slot ota rfl
    obtain rfl : T' = T := hT
    have hkept : ¬ (ota.status.imageReady = true ∧ ok 0 = true ∧ ok 1 = true) → K' = K :=
      fun hno => hK.trans (if_neg hno)
    obtain ⟨hno, rfl | ⟨hready, f', rfl, hn, hs⟩⟩ := otaApply_returned ha
    · obtain rfl := hkept hno
      exact ⟨hrec, hcpu, htrack⟩
    · obtain rfl := hkept hno
      refine ⟨recordInv_none hn, cpuInv_lost hcpu hn hs, fun slot' ota' h => ?_⟩
      obtain ⟨rfl, rfl⟩ := Cpu.app.inj h
      exact tracked_idle (ht.idle hready)
  · -- an `ota_apply` that reboots
    obtain rfl : T' = T := hT
    obtain ⟨hready, h0, h1, f', rfl, hr, hs⟩ := otaApply_rebooted ha
    obtain rfl : K' = content ota.status.stagingSlot.other f.image :=
      hK.trans (if_pos ⟨hready, h0, h1⟩)
    refine ⟨recordInv_some hr ((recordFor_applied hcpu hready).congr hs.slot), trivial, ?_⟩
    exact fun _ _ h => nomatch h
  · -- `ota_confirm`
    have ht := htrack slot ota rfl
    have hmono : T ⊆ T' := by rw [hT]; exact trustedAfter_mono ⟨⟨f, .app slot ota⟩, T, K⟩ _
    obtain rfl : K' = K := hK
    by_cases hun : ota.status.Unconfirmed
    · rcases otaConfirm_cases slot ok (s := ⟨f, ota⟩) hun with
        ⟨he, -⟩ | ⟨f', he, -, -, hn, hs⟩ | ⟨f', he, h0, h1, hr, hs⟩
      · rw [he]
        exact ⟨hrec.mono hmono, hcpu.mono hmono, htrack⟩
      · rw [he]
        refine ⟨recordInv_none hn, (cpuInv_lost hcpu hn hs).mono hmono, fun slot' ota' h => ?_⟩
        obtain ⟨rfl, rfl⟩ := Cpu.app.inj h
        exact ht.update (hs.slot ota.status.stagingSlot)
      · have hin : content slot f.image ∈ T' := by
          rw [hT]; exact .inr ⟨hun, h0, h1, rfl⟩
        have hgood : RecordFor T' K' f'.image _ slot :=
          (recordFor_confirmed hcpu hin).congr hs.slot
        rw [he]
        refine ⟨recordInv_some hr hgood, ?_, fun slot' ota' h => ?_⟩
        · refine ⟨hs.valid hcpu.1, hcpu.2.1, fun m hm => ?_, fun _ => ?_,
            fun hp => absurd hp Bool.false_ne_true⟩
          · rw [hr] at hm
            obtain rfl := Option.some.inj hm
            exact ⟨hgood.active, by simp [OtaStatus.confirmed, confirmMutator]⟩
          · rw [(hs.slot _).content_eq]; exact hin
        · obtain ⟨rfl, rfl⟩ := Cpu.app.inj h
          exact ht.update (hs.slot ota.status.stagingSlot)
    · rw [otaConfirm_nothing (s := ⟨f, ota⟩) hun]
      exact ⟨hrec.mono hmono, hcpu.mono hmono, htrack⟩

/-! ## Every run -/

theorem inv_init {w : World} (h : otaSystem.init w) : Inv w := by
  obtain ⟨hcpu, hn, -⟩ := h
  refine ⟨recordInv_none hn, ?_, fun slot ota hc => ?_⟩
  · rw [hcpu]; trivial
  · rw [hcpu] at hc; exact nomatch hc

theorem inv_reachable {w : World} (h : otaSystem.ReachableWhen Careful w) : Inv w :=
  h.inv (fun _ => inv_init) fun _ _ _ => inv_step

/-- **The rollback target survives probation**, in every run that neither erases
during probation nor enters an untrusted slot A for want of a record. -/
theorem rollbackTarget_survives {w : World} (h : otaSystem.ReachableWhen Careful w) :
    RollbackTarget w :=
  (inv_reachable h).rollbackTarget

/-! ## Losing it -/

/-- Once its first sector is erased, a slot no longer looks valid. -/
theorem eraseSectors_invalid {ok : Nat → Bool} (slot : Slot) (f : Flash) (h : ok 0 = true) :
    slotLooksValid slot (eraseSectors ok slot.offset otaSlotSectors 0 f).1.image = false := by
  have hS : flashSectorSize = 4096 := rfl
  rw [show otaSlotSectors = 191 + 1 from rfl, eraseSectors_succ h]
  refine slotLooksValid_blank fun i hi => ?_
  rw [eraseSectors_sameOutside ok slot.offset 191 (0 + 1) _ _ (by omega)]
  exact erase_inside (by omega) (by omega)

/-- **Erasing during probation always breaks the promise.** -/
theorem begin_loses_target {w w' : World} {slot : Slot} {ota : OtaState} {n : Nat} {ok : Nat → Bool}
    (h : Inv w) (hcpu : w.board.cpu = .app slot ota) (hp : ota.status.pendingVerify = true)
    (hr : readMetadata w.board.flash.image ≠ none) (hn : n ≤ otaSlotSize) (hok : ok 0 = true)
    (hs : otaSystem.step w (.call (.begin n ok)) w') : ¬ RollbackTarget w' := by
  obtain ⟨⟨f, cpu⟩, T, K⟩ := w
  obtain ⟨b', T', K'⟩ := w'
  obtain ⟨hstep, -, rfl⟩ := World.step_eq hs
  obtain ⟨hrec, hc, htrack⟩ := h
  dsimp only at hcpu hr hrec hc htrack hstep
  subst hcpu
  obtain ⟨-, hstage, hrun, -, hidle⟩ := hc
  obtain ⟨m, hm⟩ := Option.ne_none_iff_exists'.mp hr
  obtain ⟨t, hfor⟩ := hrec m hm
  obtain ⟨hactive, hpend⟩ := hrun m hm
  obtain rfl : t = slot := Slot.byte_inj.mp (hfor.active.symm.trans hactive)
  obtain ⟨⟨-, hvalid⟩, hkept⟩ := hfor.probation (hpend.mp hp)
  -- after the call the record is the same and the other slot no longer looks valid
  have hb' := (Option.some.inj hstep).symm
  have hout := run_sameOutside (htrack t ota rfl) (.begin n ok)
  rw [App.base, hstage] at hout
  have hread := readMetadata_sameOutside hout
  have hinvalid : slotLooksValid t.other ((Call.begin n ok).run ⟨f, ota⟩).1.flash.image =
      false := by
    have herased := eraseSectors_invalid t.other f hok
    rw [← hstage] at herased ⊢
    show slotLooksValid _ (otaBegin ok n ⟨f, ota⟩).1.flash.image = false
    rcases otaBegin_cases ok n ⟨f, ota⟩ with
      ⟨r, -, -, hbusy | hbig⟩ | ⟨-, -, g, hg, he⟩ | ⟨-, -, g, hg, he⟩
    · exact absurd ((hidle hp).1.symm.trans hbusy) Bool.false_ne_true
    · exact absurd hn (Nat.not_le.mpr hbig)
    · rw [he]; rw [hg] at herased; exact herased
    · rw [he]; rw [hg] at herased; exact herased
  intro hpromise
  subst hb'
  obtain ⟨t', ht', hcontent, -⟩ := hpromise m (hread.trans hm) (hpend.mp hp)
  obtain rfl : t = t' := Slot.byte_inj.mp (hactive.symm.trans ht')
  have hsame : content t.other ((Call.begin n ok).run ⟨f, ota⟩).1.flash.image =
      content t.other f.image :=
    hcontent.trans hkept.symm
  rw [(sameSlot_of_content hsame).valid_eq, hvalid] at hinvalid
  exact absurd hinvalid (by simp)

/-! ## Installing an image -/

/-- What staging an image and applying it leaves, when nothing fails. -/
structure Installed (slot : Slot) (img : Chunk) (s s' : App) (f : Flash) : Prop where
  calls : runCalls (stageCalls img) s = s'
  ready : s'.ota.status.imageReady = true
  staging : s'.ota.status.stagingSlot = slot.other
  apply : otaApply slot allOk s' = ({ s' with flash := f }, .rebooted)
  record : ∃ m, readMetadata f.image = some m ∧ m.activeSlot = slot.other.byte ∧
    m.pendingVerify = 1 ∧ m.bootAttempts = 0 ∧
    m.imageSize.get slot.other = UInt32.ofNat img.1.length ∧
    (m.imageSha256.get slot.other).1 = Fips180.sha256 img.1
  holds : SlotHolds slot.other.offset img.1 f.image
  /-- The running slot is left alone. -/
  same : SameSlot slot s.flash.image f.image

theorem install_ok {slot : Slot} {s : App} (hidle : s.ota.status.updateInProgress = false)
    (hst : s.ota.status.stagingSlot = slot.other) {img : Chunk} (hne : img.1 ≠ [])
    (hfit : img.1.length ≤ otaSlotSize) : ∃ s' f, Installed slot img s s' f := by
  obtain ⟨s', hrun, hready, -, hcount, hsha, hslot⟩ := stageCalls_ready hidle hne hfit
  obtain ⟨hout, hid⟩ := runCalls_frame (tracked_idle hidle) (stageCalls img)
  rw [hrun] at hout hid
  have hst' : s'.ota.status.stagingSlot = slot.other := (congrArg (fun p => p.2.1) hid).trans hst
  rw [App.base, hst] at hslot hout
  rcases otaApply_cases slot allOk hready with ⟨-, h⟩ | ⟨-, -, -, h, -⟩ | ⟨f, he, -, -, hr, hs⟩
  · exact absurd h (by simp [allOk])
  · exact absurd h (by simp [allOk])
  generalize currentRecord slot s'.flash.image = cur at hr
  have hother := sameSlot_other hout
  rw [Slot.other_other] at hother
  refine ⟨s', f, hrun, hready, hst', he, ⟨_, hr, congrArg Slot.byte hst', rfl, rfl, ?_, ?_⟩,
    (hs.slot _).holds hslot, hother.trans (hs.slot _)⟩
  · simp only [applyMutator, hst', PerSlot.get_set_self, hcount]
  · simp only [applyMutator, hst', PerSlot.get_set_self, hsha]

/-! ## A run that loses it -/

section Run

variable {f : Flash} {T : Set (List UInt8)} {K : List UInt8} (slot : Slot) {ota : OtaState}

/-- A slot that has been entered comes up. -/
theorem run_init {m : OtaMetadata} (hr : readMetadata f.image = some m) :
    ∃ ota', otaSystem.Runs Careful ⟨⟨f, .started slot⟩, T, K⟩ [.init allOk]
        ⟨⟨f, .app slot ota'⟩, T, K⟩ ∧
      ota'.status.stagingSlot = slot.other ∧ ota'.status.updateInProgress = false ∧
      ota'.status.pendingVerify = decide (m.pendingVerify ≠ 0) := by
  obtain ⟨ota', hup, hst, hidle, hp⟩ := otaInit_up slot hr
  have h := step_init (T := T) (K := K) (f := f) slot allOk
  rw [hup] at h
  exact ⟨ota', .cons trivial h (.nil _), hst, hidle, hp⟩

/-- Transfer calls are harmless outside probation. -/
theorem run_calls (calls : List Call) (hp : ota.status.pendingVerify = false) :
    otaSystem.Runs Careful ⟨⟨f, .app slot ota⟩, T, K⟩ (calls.map .call)
      ⟨⟨(runCalls calls ⟨f, ota⟩).flash, .app slot (runCalls calls ⟨f, ota⟩).ota⟩, T, K⟩ := by
  induction calls generalizing f ota with
  | nil => exact .nil _
  | cons c calls ih =>
    refine .cons ?_ (step_call _ _ c) (ih ((run_pendingVerify c ⟨f, ota⟩).trans hp))
    cases c with
    | begin n ok =>
      intro slot' ota' h hp'
      obtain ⟨rfl, rfl⟩ := Cpu.app.inj h
      exact absurd (hp.symm.trans hp') Bool.false_ne_true
    | write _ _ _ => trivial
    | finalize _ => trivial
    | abort => trivial

/-- An image is staged and applied: its slot goes on probation. -/
theorem run_install (hidle : ota.status.updateInProgress = false)
    (hp : ota.status.pendingVerify = false) (hstage : ota.status.stagingSlot = slot.other)
    {img : Chunk} (hne : img.1 ≠ []) (hfit : img.1.length ≤ otaSlotSize) :
    ∃ f' m' K', otaSystem.Runs Careful ⟨⟨f, .app slot ota⟩, T, K⟩
        ((stageCalls img).map .call ++ [.apply allOk]) ⟨⟨f', .bootloader⟩, T, K'⟩ ∧
      readMetadata f'.image = some m' ∧ m'.activeSlot = slot.other.byte ∧ m'.pendingVerify = 1 ∧
      m'.bootAttempts = 0 ∧ SlotHolds slot.other.offset img.1 f'.image ∧
      SameSlot slot f.image f'.image := by
  obtain ⟨⟨f₁, ota₁⟩, f₂, hinst⟩ := install_ok (s := ⟨f, ota⟩) hidle hstage hne hfit
  obtain ⟨m', hr, ha, hp', hn, -⟩ := hinst.record
  have hstaged := run_calls (T := T) (K := K) (f := f) slot (stageCalls img) hp
  rw [hinst.calls] at hstaged
  exact ⟨f₂, m', _, hstaged.append (.cons trivial (step_apply hinst.apply) (.nil _)),
    hr, ha, hp', hn, hinst.holds, hinst.same⟩

end Run

/-- A board from the factory: the image in slot A, everything else erased. -/
def factory : World where
  board := ⟨⟨NorFlash.program Slot.a.offset bootable.1 (fun _ => 0xFF), []⟩, .bootloader⟩
  trusted := {content .a (NorFlash.program Slot.a.offset bootable.1 (fun _ => 0xFF))}
  kept := []

/-- Bring the board up, install an image, boot it. -/
def installAndBoot : List Event :=
  [.boot allOk, .init allOk] ++ ((stageCalls bootable).map .call ++ [.apply allOk])
    ++ [.boot allOk, .init allOk]

theorem factory_init : otaSystem.init factory := by
  have hend : Slot.a.offset + bootable.1.length ≤ otaMetadataOffset := by
    rw [bootable_length]; decide
  refine ⟨rfl, readMetadata_blank fun i _ => ?_, rfl⟩
  exact program_outside (f := fun _ => 0xFF) (.inr (Nat.le_trans hend (Nat.le_add_right _ i)))

/-- The image ends up running on probation, booted once. -/
theorem factory_installAndBoot : ∃ f ota K m,
    otaSystem.Runs Careful factory installAndBoot ⟨⟨f, .app .b ota⟩, factory.trusted, K⟩ ∧
    ota.status.pendingVerify = true ∧ readMetadata f.image = some m ∧ m.activeSlot = Slot.b.byte ∧
    m.pendingVerify = 1 ∧ m.bootAttempts = 1 ∧ ∀ u, slotLooksValid u f.image = true := by
  have hS : otaSlotSize = 786432 := rfl
  obtain ⟨-, hr₀, hT⟩ := factory_init
  have hv₀ : slotLooksValid .a factory.board.flash.image = true := bootable_programmed .a
  obtain ⟨f₁, he₁, hr₁, hs₁⟩ := boot_noRecord hr₀ hv₀
  have hboot₁ := step_boot (T := factory.trusted) (K := factory.kept) he₁
  obtain ⟨ota₁, hinit₁, hstage₁, hidle₁, hp₁⟩ :=
    run_init (T := factory.trusted) (K := factory.kept) .a hr₁
  have hne : bootable.1 ≠ [] := List.ne_nil_of_length_pos (by rw [bootable_length]; omega)
  obtain ⟨f₂, m₂, K₂, hinstall, hr₂, ha₂, hp₂, hn₂, hslot, hs₂⟩ :=
    run_install (f := f₁) (T := factory.trusted) (K := factory.kept) .a hidle₁ hp₁ hstage₁
      hne (by rw [bootable_length]; omega)
  have hp₂' : m₂.pendingVerify ≠ 0 := by rw [hp₂]; decide
  have hvb := bootable_valid .b hslot
  obtain ⟨f₃, he₃, hr₃, hs₃⟩ := boot_attempt (t := .b) hr₂ ha₂ hp₂' (by rw [hn₂]; decide) hvb
  have hboot₃ := step_boot (T := factory.trusted) (K := K₂) he₃
  obtain ⟨ota₃, hinit₃, -, -, hp₃⟩ :=
    run_init (T := factory.trusted) (K := K₂) .b hr₃
  refine ⟨f₃, ota₃, K₂, _, ?_, ?_, hr₃, ha₂, hp₂, ?_, fun u => ?_⟩
  · refine LTS.Runs.append (LTS.Runs.append (.cons ?_ hboot₁ hinit₁) hinstall)
      (.cons ?_ hboot₃ hinit₃)
    · exact fun _ _ => by rw [hT]; rfl
    · exact fun hn => absurd (hr₂.symm.trans hn) (by simp)
  · rw [hp₃]; exact decide_eq_true hp₂'
  · show m₂.bootAttempts + 1 = 1
    rw [hn₂]; rfl
  · rw [(hs₃.slot u).valid_eq]
    cases u with
    | a => exact hs₂.valid_eq.trans (hs₁.valid hv₀)
    | b => exact hvb

theorem factory_rollbackTarget : ∃ w, otaSystem.ReachableWhen Careful w ∧
    (∃ m, readMetadata w.board.flash.image = some m ∧ m.pendingVerify ≠ 0) ∧ RollbackTarget w := by
  obtain ⟨f, ota, K, m, hrun, -, hr, -, hp, -⟩ := factory_installAndBoot
  have hreach := hrun.reachableWhen (.init factory_init)
  exact ⟨_, hreach, ⟨m, hr, by rw [hp]; decide⟩, rollbackTarget_survives hreach⟩

/-- The freshly booted image starts a download, and the image to go back to is gone. -/
theorem download_on_probation_breaks : ∃ w,
    otaSystem.Runs (fun _ _ => True) factory (installAndBoot ++ [.call (.begin 0 allOk)]) w ∧
    otaSystem.Reachable w ∧ ¬ RollbackTarget w := by
  obtain ⟨f, ota, K, m, hrun, hp, hr, -⟩ := factory_installAndBoot
  have hall := hrun.mono fun _ _ _ => trivial
  have hstep := step_call (T := factory.trusted) (K := K) (f := f) .b ota (.begin 0 allOk)
  refine ⟨_, hall.append (.cons trivial hstep (.nil _)),
    LTS.Reachable.tail (hrun.reachableWhen (.init factory_init)).reachable hstep, ?_⟩
  exact begin_loses_target (inv_reachable (hrun.reachableWhen (.init factory_init))) rfl hp
    (by rw [hr]; simp) (Nat.zero_le _) rfl hstep

end PicoBLE.Ota
