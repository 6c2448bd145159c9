import PicoBLE.Ota.Rollback

/-!
# Interrupted metadata updates

An update erases the metadata sector and then programs it. If it stops in
between, no record is left, and the bootloader decides as on a first boot. The
decision it would have taken on a record is spelled out by `decision`, so that
the two can be compared.
-/

namespace PicoBLE.Ota

open NorFlash
open PicoBLE.Bootloader

/-! ## The boot decision -/

/-- The slot control is handed to, and whether it is on probation there; `none`
is BOOTSEL. -/
abbrev Decision := Option (Slot × Bool)

/-- Enter the slot if it looks valid, else the other one, off probation. -/
def enterOr (valid : Slot → Bool) (slot : Slot) (probation : Bool) : Decision :=
  if valid slot then some (slot, probation)
  else if valid slot.other then some (slot.other, false)
  else none

theorem enterOr_valid {valid : Slot → Bool} {slot : Slot} (p : Bool) (h : valid slot = true) :
    enterOr valid slot p = some (slot, p) := by
  unfold enterOr; rw [if_pos h]

theorem enterOr_other {valid : Slot → Bool} {slot : Slot} (p : Bool) (h : valid slot = false)
    (ho : valid slot.other = true) : enterOr valid slot p = some (slot.other, false) := by
  unfold enterOr; rw [h, if_neg Bool.false_ne_true, if_pos ho]

theorem enterOr_neither {valid : Slot → Bool} {slot : Slot} (p : Bool) (h : valid slot = false)
    (ho : valid slot.other = false) : enterOr valid slot p = none := by
  unfold enterOr; rw [h, ho, if_neg Bool.false_ne_true, if_neg Bool.false_ne_true]

/-- It leads nowhere only when neither slot looks valid. -/
theorem enterOr_none {valid : Slot → Bool} {slot : Slot} {p : Bool} :
    enterOr valid slot p = none ↔ valid .a = false ∧ valid .b = false := by
  unfold enterOr
  cases slot <;> cases ha : valid .a <;> cases hb : valid .b <;> simp [Slot.other, ha, hb]

/-- What the bootloader decides on a record, once it has rolled back where that is due. -/
def decision (m : OtaMetadata) (valid : Slot → Bool) : Decision :=
  let slot := Slot.ofByte m.activeSlot
  if m.pendingVerify ≠ 0 ∧ otaMaxBootAttempts ≤ m.bootAttempts then enterOr valid slot.other false
  else enterOr valid slot (m.pendingVerify ≠ 0)

/-- What undisturbed bootloader runs come to. -/
inductive BootsTo : Flash → Decision → Prop where
  | entered {f f' : Flash} {slot : Slot} {m : OtaMetadata} :
    main allOk f = (f', .jumped slot) → readMetadata f'.image = some m →
    BootsTo f (some (slot, m.pendingVerify ≠ 0))
  | bootsel {f f' : Flash} : main allOk f = (f', .bootsel) → BootsTo f none
  | again {f f' : Flash} {d : Decision} :
    main allOk f = (f', .rebooted) → BootsTo f' d → BootsTo f d

/-- A flash boots to one thing only. -/
theorem BootsTo.unique {f : Flash} {d d' : Decision} (h : BootsTo f d) (h' : BootsTo f d') :
    d' = d := by
  induction h generalizing d' with
  | entered he hr =>
    cases h' with
    | entered he' hr' =>
      obtain ⟨rfl, hj⟩ := Prod.mk.inj (he.symm.trans he')
      obtain rfl := Boot.jumped.inj hj
      obtain rfl := Option.some.inj (hr.symm.trans hr')
      rfl
    | bootsel he' => exact absurd (congrArg Prod.snd (he.symm.trans he')) (by simp)
    | again he' _ => exact absurd (congrArg Prod.snd (he.symm.trans he')) (by simp)
  | bootsel he =>
    cases h' with
    | entered he' _ => exact absurd (congrArg Prod.snd (he.symm.trans he')) (by simp)
    | bootsel _ => rfl
    | again he' _ => exact absurd (congrArg Prod.snd (he.symm.trans he')) (by simp)
  | again he _ ih =>
    cases h' with
    | entered he' _ => exact absurd (congrArg Prod.snd (he.symm.trans he')) (by simp)
    | bootsel he' => exact absurd (congrArg Prod.snd (he.symm.trans he')) (by simp)
    | again he' h' =>
      obtain rfl := congrArg Prod.fst (he.symm.trans he')
      exact ih h'

/-! ## What it decides on a record -/

/-- Any run that has got as far as entering the active slot. -/
theorem bootsTo_enterActive {f f' : Flash} {m : OtaMetadata} (power : Nat → Bool)
    (hmain : main allOk f = enterActive power m f') (hr : readMetadata f'.image = some m)
    (h0 : power 0 = true) (h1 : power 1 = true) :
    BootsTo f (enterOr (fun u => slotLooksValid u f'.image) (Slot.ofByte m.activeSlot)
      (m.pendingVerify ≠ 0)) := by
  cases hvt : slotLooksValid (Slot.ofByte m.activeSlot) f'.image with
  | true =>
    rw [enterActive_valid rfl hvt] at hmain
    rw [enterOr_valid _ hvt]
    exact .entered hmain hr
  | false =>
    cases hvo : slotLooksValid (Slot.ofByte m.activeSlot).other f'.image with
    | false =>
      rw [enterActive_none rfl hvt hvo] at hmain
      rw [enterOr_neither _ hvt hvo]
      exact .bootsel hmain
    | true =>
      obtain ⟨g, he, hrg, -⟩ := enterActive_fallback power hr rfl hvt hvo h0 h1
      rw [he] at hmain
      rw [enterOr_other _ hvt hvo]
      exact .entered hmain hrg

theorem SameSlots.valid_eq {f g : Image} (h : SameSlots f g) :
    (fun u => slotLooksValid u g) = fun u => slotLooksValid u f :=
  funext fun u => (h.slot u).valid_eq

/-- **The decision is what the bootloader does.** -/
theorem bootsTo_decision {f : Flash} {m : OtaMetadata} (hr : readMetadata f.image = some m)
    (hactive : ∃ t : Slot, m.activeSlot = t.byte) :
    BootsTo f (decision m fun u => slotLooksValid u f.image) := by
  obtain ⟨t, ht⟩ := hactive
  unfold decision
  by_cases hp : m.pendingVerify = 0
  · rw [if_neg fun h => h.1 hp]
    exact bootsTo_enterActive allOk (main_settled hr hp) hr rfl rfl
  · by_cases ha : otaMaxBootAttempts ≤ m.bootAttempts
    · rw [if_pos ⟨hp, ha⟩]
      obtain ⟨f', he, hr', hs⟩ := boot_rollback hr hp ha
      refine .again he ?_
      have h := bootsTo_enterActive allOk (main_settled hr' rfl) hr' rfl rfl
      rw [hs.valid_eq, flipped_active ht, Slot.ofByte_byte] at h
      rw [ht, Slot.ofByte_byte]
      exact h
    · rw [if_neg fun h => ha h.2]
      obtain ⟨f', he, hr', hs⟩ := main_counted hr hp ha
      have h := bootsTo_enterActive (fun k => allOk (k + 2)) he hr' rfl rfl
      rw [hs.valid_eq] at h
      exact h

/-- Without a record it is slot A, off probation, or BOOTSEL. -/
theorem bootsTo_noRecord {f : Flash} (hr : readMetadata f.image = none) :
    BootsTo f (if slotLooksValid .a f.image then some (.a, false) else none) := by
  cases hv : slotLooksValid .a f.image with
  | true =>
    obtain ⟨f', he, hr', -⟩ := boot_noRecord hr hv
    exact .entered he hr'
  | false => exact .bootsel (main_nothing hr hv)

/-! ## Updates that stop half-way -/

/-- An update of record `old` to `new` that stopped between its erase and its
program: from the flash `before` it to the flash `after`. -/
inductive Interrupted : OtaMetadata → OtaMetadata → Flash → Flash → Prop where
  /-- `ota_apply`. -/
  | apply {slot : Slot} {ok : Nat → Bool} {s : App} {old : OtaMetadata} :
    readMetadata s.flash.image = some old → s.ota.status.imageReady = true →
    ok 0 = true → ok 1 = false →
    Interrupted old (applyMutator s.ota.status old) s.flash (otaApply slot ok s).1.flash
  /-- `ota_confirm`. -/
  | confirm {slot : Slot} {ok : Nat → Bool} {s : App} {old : OtaMetadata} :
    readMetadata s.flash.image = some old → s.ota.status.Unconfirmed →
    ok 0 = true → ok 1 = false →
    Interrupted old (confirmMutator old) s.flash (otaConfirm slot ok s).flash
  /-- The bootloader's rollback. -/
  | rollback {power : Nat → Bool} {f : Flash} {old : OtaMetadata} :
    readMetadata f.image = some old → old.pendingVerify ≠ 0 →
    otaMaxBootAttempts ≤ old.bootAttempts → power 0 = true → power 1 = false →
    Interrupted old (flipped old) f (main power f).1
  /-- Its attempt count. -/
  | attempt {power : Nat → Bool} {f : Flash} {old : OtaMetadata} :
    readMetadata f.image = some old → old.pendingVerify ≠ 0 →
    ¬ otaMaxBootAttempts ≤ old.bootAttempts → power 0 = true → power 1 = false →
    Interrupted old { old with bootAttempts := old.bootAttempts + 1 } f (main power f).1
  /-- Its fallback to the other slot. -/
  | fallback {power : Nat → Bool} {f : Flash} {old : OtaMetadata} {t : Slot} :
    readMetadata f.image = some old → Slot.ofByte old.activeSlot = t →
    slotLooksValid t f.image = false → slotLooksValid t.other f.image = true →
    power 0 = true → power 1 = false →
    Interrupted old (flipped old) f (enterActive power old f).1

/-- Whichever it was, the record is gone and the slots are as they were. -/
theorem Interrupted.lost {old new : OtaMetadata} {before after : Flash}
    (h : Interrupted old new before after) :
    readMetadata after.image = none ∧ SameSlots before.image after.image := by
  cases h with
  | apply hr hready h0 h1 =>
    rcases otaApply_cases _ _ hready with ⟨-, h⟩ | ⟨f', he, -, -, hn, hs⟩ | ⟨-, -, -, h, -⟩
    · exact absurd (h0.symm.trans h) (by simp)
    · rw [he]; exact ⟨hn, hs⟩
    · exact absurd (h1.symm.trans h) (by simp)
  | confirm hr hun h0 h1 =>
    rcases otaConfirm_cases _ _ hun with ⟨-, h⟩ | ⟨f', he, -, -, hn, hs⟩ | ⟨-, -, -, h, -⟩
    · exact absurd (h0.symm.trans h) (by simp)
    · rw [he]; exact ⟨hn, hs⟩
    · exact absurd (h1.symm.trans h) (by simp)
  | rollback hr hp ha h0 h1 =>
    rw [main_rollback hr hp ha]
    obtain ⟨f', he, hn, hs⟩ := writeThen_lost (flipped old) before _ h0 h1
    rw [he]; exact ⟨hn, hs⟩
  | attempt hr hp ha h0 h1 =>
    rw [main_attempt hr hp ha]
    obtain ⟨f', he, hn, hs⟩ :=
      writeThen_lost { old with bootAttempts := old.bootAttempts + 1 } before _ h0 h1
    rw [he]; exact ⟨hn, hs⟩
  | fallback hr ht hv ho h0 h1 =>
    rw [enterActive_other ht hv ho]
    obtain ⟨f', he, hn, hs⟩ := writeThen_lost (flipped old) before _ h0 h1
    rw [he]; exact ⟨hn, hs⟩

/-- The decision after the interruption is the one on the old record or on the new one. -/
def CrashAtomic (old new : OtaMetadata) (before after : Flash) : Prop :=
  ∀ d, BootsTo after d →
    d = decision old (fun u => slotLooksValid u before.image) ∨
    d = decision new (fun u => slotLooksValid u before.image)

/-- A record leads nowhere only when neither slot looks valid. -/
theorem decision_none {m : OtaMetadata} {valid : Slot → Bool} :
    decision m valid = none ↔ valid .a = false ∧ valid .b = false := by
  unfold decision
  dsimp only
  split <;> exact enterOr_none

/-- **An interrupted update boots slot A, or nothing.** Whatever the two records,
the bootloader hands over to slot A off probation if that looks valid, and
drops to BOOTSEL otherwise; which is what one of the records asked for just in
the two cases named. -/
theorem interrupted_boot {old new : OtaMetadata} {before after : Flash}
    (h : Interrupted old new before after) :
    BootsTo after (if slotLooksValid .a before.image then some (.a, false) else none) ∧
    (CrashAtomic old new before after ↔
      slotLooksValid .a before.image = true ∧
        (decision old (fun u => slotLooksValid u before.image) = some (.a, false) ∨
          decision new (fun u => slotLooksValid u before.image) = some (.a, false)) ∨
      slotLooksValid .a before.image = false ∧ slotLooksValid .b before.image = false) := by
  obtain ⟨hn, hs⟩ := h.lost
  have hboot := bootsTo_noRecord hn
  rw [(hs.slot .a).valid_eq] at hboot
  refine ⟨hboot, ?_⟩
  have hatomic : CrashAtomic old new before after ↔
      (if slotLooksValid .a before.image then some (Slot.a, false) else none)
          = decision old (fun u => slotLooksValid u before.image) ∨
        (if slotLooksValid .a before.image then some (Slot.a, false) else none)
          = decision new (fun u => slotLooksValid u before.image) := by
    constructor
    · exact fun hc => hc _ hboot
    · intro hd d hb
      rw [hboot.unique hb]
      exact hd
  rw [hatomic]
  cases hv : slotLooksValid .a before.image with
  | true =>
    rw [if_pos rfl]
    constructor
    · exact fun h => .inl ⟨rfl, h.imp Eq.symm Eq.symm⟩
    · rintro (⟨-, h⟩ | ⟨h, -⟩)
      · exact h.imp Eq.symm Eq.symm
      · exact absurd h (by simp)
  | false =>
    rw [if_neg Bool.false_ne_true]
    constructor
    · rintro (h | h)
      · exact .inr ⟨rfl, (decision_none.mp h.symm).2⟩
      · exact .inr ⟨rfl, (decision_none.mp h.symm).2⟩
    · rintro (⟨h, -⟩ | ⟨-, hb⟩)
      · exact absurd h Bool.false_ne_true
      · exact .inl (decision_none.mpr ⟨hv, hb⟩).symm

/-- The confirmation of a freshly booted image in slot B is cut short. -/
theorem interruptedConfirm : ∃ f ota K m,
    otaSystem.Runs Careful factory installAndBoot ⟨⟨f, .app .b ota⟩, factory.trusted, K⟩ ∧
    Interrupted m (confirmMutator m) f (otaConfirm .b (fun k => k = 0) ⟨f, ota⟩).flash ∧
    m.activeSlot = Slot.b.byte ∧ m.bootAttempts = 1 ∧ ∀ u, slotLooksValid u f.image = true := by
  obtain ⟨f, ota, K, m, hrun, hpend, hr, ha, -, hn, hvalid⟩ := factory_installAndBoot
  exact ⟨f, ota, K, m, hrun, .confirm (s := ⟨f, ota⟩) hr (.inl hpend) rfl rfl, ha, hn, hvalid⟩

theorem interruptedConfirm_boot : ∃ f m after, Interrupted m (confirmMutator m) f after ∧
    BootsTo after (if slotLooksValid .a f.image then some (.a, false) else none) := by
  obtain ⟨f, ota, K, m, -, hint, -⟩ := interruptedConfirm
  exact ⟨f, m, _, hint, (interrupted_boot hint).1⟩

/-- Both records ask for slot B, and slot A is booted. -/
theorem interruptedConfirm_breaks : ∃ f ota K m,
    otaSystem.Runs Careful factory installAndBoot ⟨⟨f, .app .b ota⟩, factory.trusted, K⟩ ∧
    Interrupted m (confirmMutator m) f (otaConfirm .b (fun k => k = 0) ⟨f, ota⟩).flash ∧
    BootsTo (otaConfirm .b (fun k => k = 0) ⟨f, ota⟩).flash (some (.a, false)) ∧
    ¬ CrashAtomic m (confirmMutator m) f (otaConfirm .b (fun k => k = 0) ⟨f, ota⟩).flash := by
  obtain ⟨f, ota, K, m, hrun, hint, ha, hn, hvalid⟩ := interruptedConfirm
  obtain ⟨hlost, hs⟩ := hint.lost
  have hboot := bootsTo_noRecord hlost
  rw [(hs.slot .a).valid_eq, hvalid .a, if_pos rfl] at hboot
  refine ⟨f, ota, K, m, hrun, hint, hboot, fun hc => ?_⟩
  -- neither record leads to slot A
  have hslot : ∀ r : OtaMetadata, r.activeSlot = Slot.b.byte →
      ¬ otaMaxBootAttempts ≤ r.bootAttempts →
      some (Slot.a, false) ≠ decision r fun u => slotLooksValid u f.image := by
    intro r hactive hattempts
    unfold decision
    dsimp only
    rw [if_neg fun h => hattempts h.2, hactive, Slot.ofByte_byte, enterOr_valid _ (hvalid .b)]
    simp
  rcases hc _ hboot with h | h
  · exact hslot m ha (by rw [hn]; decide) h
  · exact hslot (confirmMutator m) ha (by show ¬ otaMaxBootAttempts ≤ 0; decide) h

end PicoBLE.Ota
