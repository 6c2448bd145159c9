import Mathlib.Tactic.IntervalCases
import PicoBLE.Ota.System

/-!
# Bounded probation

What is meant to happen after `ota_apply` fits in a small machine: an image on
trial is booted a fixed number of times, then given up for the old one, unless
it is confirmed. `Phase` is that machine, with no flash and no record in it.

The board follows it. `InPhase` relates the two, each event of the board is a
step of the machine or none, and what the machine does over a whole run is a
matter of counting.
-/

namespace PicoBLE.Ota

open NorFlash
open PicoBLE.Bootloader

/-! ## The machine -/

/-- Where the trial of an image stands. -/
inductive Phase where
  /-- Booted `k` times, not confirmed. -/
  | trying (k : Nat)
  | rolledBack
  | confirmed
deriving DecidableEq, Repr

/-- Boots an image on trial gets. -/
def maxTries : Nat := 3

/-- The slot that is booted, when the trial is of slot `t`. -/
def Phase.slot (t : Slot) : Phase → Slot
  | .trying _ => t
  | .rolledBack => t.other
  | .confirmed => t

def Phase.onTrial : Phase → Bool
  | .trying _ => true
  | .rolledBack => false
  | .confirmed => false

def Phase.tries : Phase → Nat
  | .trying k => k
  | .rolledBack => 0
  | .confirmed => 0

/-- What a boot comes to. -/
def Phase.boot (t : Slot) : Phase → Boot × Phase
  | .trying k => if k < maxTries then (.jumped t, .trying (k + 1)) else (.rebooted, .rolledBack)
  | .rolledBack => (.jumped t.other, .rolledBack)
  | .confirmed => (.jumped t, .confirmed)

def Phase.confirm : Phase → Phase
  | .trying _ => .confirmed
  | .rolledBack => .rolledBack
  | .confirmed => .confirmed

/-- The phase after an event of the board. -/
def Phase.after (t : Slot) (p : Phase) : Event → Phase
  | .boot _ => (p.boot t).2
  | .confirm _ => p.confirm
  | _ => p

/-! ## The board follows it -/

/-- A record that says what the phase is. -/
structure Shows (t : Slot) (p : Phase) (m : OtaMetadata) : Prop where
  active : m.activeSlot = (p.slot t).byte
  pending : m.pendingVerify = if p.onTrial then 1 else 0
  attempts : m.bootAttempts = UInt8.ofNat p.tries

/-- Whoever has the processor belongs to the phase. -/
def CpuInPhase (t : Slot) (p : Phase) : Cpu → Prop
  | .bootloader => True
  | .bootsel => False
  | .started u => u = p.slot t
  | .app u ota =>
    u = p.slot t ∧ ota.status.pendingVerify = p.onTrial ∧
      ota.status.bootAttempts = UInt8.ofNat p.tries ∧
      ota.status.updateInProgress = false ∧ ota.status.imageReady = false

/-- The board is in a phase of the trial of slot `t`. -/
structure InPhase (t : Slot) (p : Phase) (b : Board) : Prop where
  record : ∃ m, readMetadata b.flash.image = some m ∧ Shows t p m
  tries : p.tries ≤ maxTries
  valid : ∀ u, slotLooksValid u b.flash.image = true
  cpu : CpuInPhase t p b.cpu

/-- Flash and power work throughout, and no new image is staged or applied. -/
def Uneventful : Event → Prop
  | .reset => True
  | .boot power => ∀ k, power k = true
  | .init ok => ∀ k, ok k = true
  | .call (.begin _ _) => False
  | .call _ => True
  | .apply _ => False
  | .confirm ok => ∀ k, ok k = true

theorem eq_allOk {ok : Nat → Bool} (h : ∀ k, ok k = true) : ok = allOk := funext h

section Follow

variable {t : Slot} {p : Phase} {f : Flash}

/-- The bootloader does what the phase says. -/
theorem boot_inPhase (h : InPhase t p ⟨f, .bootloader⟩) :
    (main allOk f).2 = (p.boot t).1 ∧
      InPhase t (p.boot t).2 ⟨(main allOk f).1, .afterBoot (main allOk f).2⟩ := by
  obtain ⟨⟨m, hr, hm⟩, htries, hvalid, -⟩ := h
  cases p with
  | trying k =>
    have hp : m.pendingVerify ≠ 0 := by rw [hm.pending]; exact (by decide : (1 : UInt8) ≠ 0)
    have hk : k ≤ 3 := htries
    have hle : otaMaxBootAttempts ≤ m.bootAttempts ↔ ¬ k < maxTries := by
      rw [hm.attempts]
      show otaMaxBootAttempts ≤ UInt8.ofNat k ↔ ¬ k < 3
      interval_cases k <;> decide
    by_cases hlt : k < maxTries
    · -- another try
      obtain ⟨f', he, hr', hs⟩ := boot_attempt hr hm.active hp (fun h => hle.mp h hlt) (hvalid _)
      rw [he, Phase.boot, if_pos hlt]
      refine ⟨rfl, ⟨_, hr', hm.active, hm.pending, ?_⟩, Nat.succ_le_of_lt hlt,
        fun u => hs.valid (hvalid u), rfl⟩
      show m.bootAttempts + 1 = UInt8.ofNat (k + 1)
      rw [hm.attempts]
      show UInt8.ofNat k + 1 = _
      interval_cases k <;> rfl
    · -- the tries are used up
      obtain ⟨f', he, hr', hs⟩ := boot_rollback hr hp (hle.mpr hlt)
      rw [he, Phase.boot, if_neg hlt]
      refine ⟨rfl, ⟨_, hr', ?_, rfl, rfl⟩, Nat.zero_le _,
        fun u => hs.valid (hvalid u), trivial⟩
      show m.activeSlot ^^^ 1 = t.other.byte
      rw [hm.active]
      exact Slot.byte_xor_one t
  | rolledBack =>
    rw [boot_settled hr hm.active hm.pending (hvalid _)]
    exact ⟨rfl, ⟨m, hr, hm⟩, htries, hvalid, rfl⟩
  | confirmed =>
    rw [boot_settled hr hm.active hm.pending (hvalid _)]
    exact ⟨rfl, ⟨m, hr, hm⟩, htries, hvalid, rfl⟩

/-- `ota_init` takes the phase over into the status. -/
theorem init_inPhase {u : Slot} (h : InPhase t p ⟨f, .started u⟩) (ok : Nat → Bool) :
    InPhase t p ⟨(otaInit u ok ⟨f, OtaState.zero⟩).flash,
      .app u (otaInit u ok ⟨f, OtaState.zero⟩).ota⟩ := by
  obtain ⟨⟨m, hr, hm⟩, htries, hvalid, hcpu⟩ := h
  rw [otaInit_some (s := ⟨f, OtaState.zero⟩) hr]
  refine ⟨⟨m, hr, hm⟩, htries, hvalid, hcpu, ?_, hm.attempts, rfl, rfl⟩
  show decide (m.pendingVerify ≠ 0) = p.onTrial
  rw [hm.pending]
  cases p.onTrial <;> rfl

/-- `ota_confirm` ends the trial. -/
theorem confirm_inPhase {u : Slot} {ota : OtaState} (h : InPhase t p ⟨f, .app u ota⟩) :
    InPhase t p.confirm ⟨(otaConfirm u allOk ⟨f, ota⟩).flash,
      .app u (otaConfirm u allOk ⟨f, ota⟩).ota⟩ := by
  have hquiet : p.onTrial = false → p.tries = 0 → p.confirm = p →
      InPhase t p.confirm
        ⟨(otaConfirm u allOk ⟨f, ota⟩).flash, .app u (otaConfirm u allOk ⟨f, ota⟩).ota⟩ := by
    intro htrial htries hsame
    obtain ⟨-, hp, ha, -⟩ := h.cpu
    rw [hsame, otaConfirm_nothing]
    · exact h
    · rintro (hp' | ha')
      · exact absurd (hp'.symm.trans (hp.trans htrial)) (by simp)
      · exact ha' (by rw [ha, htries]; rfl)
  cases p with
  | rolledBack => exact hquiet rfl rfl rfl
  | confirmed => exact hquiet rfl rfl rfl
  | trying k =>
    obtain ⟨⟨m, hr, hm⟩, -, hvalid, rfl, hp, -, hidle, hready⟩ := h
    rcases otaConfirm_cases u allOk (s := ⟨f, ota⟩) (.inl hp) with
      ⟨-, h0⟩ | ⟨-, -, -, h1, -⟩ | ⟨f', he, -, -, hr', hs⟩
    · exact absurd h0 (by simp [allOk])
    · exact absurd h1 (by simp [allOk])
    · rw [he]
      rw [currentRecord_some hr] at hr'
      exact ⟨⟨_, hr', hm.active, rfl, rfl⟩, Nat.zero_le _,
        fun u => hs.valid (hvalid u), rfl, rfl, rfl, hidle, hready⟩

/-- **The board follows the machine.** -/
theorem inPhase_step {b b' : Board} {e : Event} (h : InPhase t p b) (hun : Uneventful e)
    (hs : b.step e = some b') : InPhase t (p.after t e) b' := by
  obtain ⟨f, cpu⟩ := b
  rcases Board.step_cases hs with ⟨rfl, rfl⟩ | ⟨power, rfl, rfl, rfl⟩ | ⟨ok, slot, rfl, rfl, rfl⟩ |
      ⟨c, slot, ota, rfl, rfl, rfl⟩ | ⟨ok, slot, ota, a, r, rfl, -⟩ | ⟨ok, slot, ota, a, rfl, -⟩ |
      ⟨ok, slot, ota, rfl, rfl, rfl⟩
  · exact ⟨h.record, h.tries, h.valid, trivial⟩
  · obtain rfl := eq_allOk hun
    exact (boot_inPhase h).2
  · exact init_inPhase h ok
  · have hidle := h.cpu.2.2.2.1
    have hsame : (c.run ⟨f, ota⟩).1 = ⟨f, ota⟩ :=
      run_quiet hidle fun n ok hc _ => by subst hc; exact hun.elim
    dsimp only
    rw [hsame]
    exact h
  · exact hun.elim
  · exact hun.elim
  · obtain rfl := eq_allOk hun
    exact confirm_inPhase h

end Follow

/-! ## Counting boots -/

/-- The board, with the outcome of every bootloader run so far and the number of
them when the image was confirmed. -/
structure Trial where
  board : Board
  boots : List Boot
  confirmed : Option Nat

/-- The bootloader runs after an event. -/
def bootsAfter (h : Trial) : Event → List Boot
  | .boot power => h.boots ++ [(main power h.board.flash).2]
  | _ => h.boots

/-- When the image was confirmed, after an event. -/
def confirmedAfter (h : Trial) : Event → Option Nat
  | .confirm _ =>
    match h.board.cpu with
    | .app _ ota =>
      if ota.status.Unconfirmed ∧ h.confirmed = none then some h.boots.length else h.confirmed
    | _ => h.confirmed
  | _ => h.confirmed

def Trial.step (h : Trial) (e : Event) : Option Trial :=
  (h.board.step e).map fun b => ⟨b, bootsAfter h e, confirmedAfter h e⟩

/-- What `ota_apply` leaves for slot `t`, with an image in either slot. -/
structure Applied (t : Slot) (b : Board) : Prop where
  cpu : b.cpu = .bootloader
  record : ∃ m, readMetadata b.flash.image = some m ∧ m.activeSlot = t.byte ∧
    m.pendingVerify = 1 ∧ m.bootAttempts = 0
  valid : ∀ u, slotLooksValid u b.flash.image = true

/-- Trials of the image in slot `t`. -/
def trials (t : Slot) : LTS Trial Event :=
  LTS.ofFun (fun h => Applied t h.board ∧ h.boots = [] ∧ h.confirmed = none) Trial.step

/-- What the history of a trial is in each phase. -/
def Counted (t : Slot) (h : Trial) : Phase → Prop
  | .trying k => h.boots = List.replicate k (.jumped t) ∧ h.confirmed = none ∧
      (h.board.cpu ≠ .bootloader → 1 ≤ k)
  | .rolledBack => h.confirmed = none ∧ ∃ n,
      h.boots = List.replicate maxTries (.jumped t) ++ .rebooted :: List.replicate n
        (.jumped t.other)
  | .confirmed => ∃ k n, h.confirmed = some k ∧ 1 ≤ k ∧ k ≤ maxTries ∧
      h.boots = List.replicate (k + n) (.jumped t)

/-- The board is in a phase, and the history is that of the phase. -/
def OnTrack (t : Slot) (h : Trial) : Prop := ∃ p, InPhase t p h.board ∧ Counted t h p

theorem onTrack_init {t : Slot} {h : Trial} (hi : (trials t).init h) : OnTrack t h := by
  obtain ⟨⟨hcpu, ⟨m, hr, ha, hp, hn⟩, hvalid⟩, hboots, hconf⟩ := hi
  refine ⟨.trying 0, ⟨⟨m, hr, ha, hp, hn⟩, Nat.zero_le _, hvalid, ?_⟩, hboots, hconf, ?_⟩
  · rw [hcpu]; trivial
  · exact fun hne => absurd hcpu hne

/-- A boot lengthens the history by what the phase says. -/
theorem counted_boot {t : Slot} {p : Phase} {f : Flash} {boots : List Boot} {conf : Option Nat}
    (h : Counted t ⟨⟨f, .bootloader⟩, boots, conf⟩ p) (htries : p.tries ≤ maxTries) (b : Board) :
    Counted t ⟨b, boots ++ [(p.boot t).1], conf⟩ (p.boot t).2 := by
  cases p with
  | trying k =>
    obtain ⟨rfl, hconf, -⟩ := h
    by_cases hlt : k < maxTries
    · rw [Phase.boot, if_pos hlt]
      exact ⟨List.replicate_succ'.symm, hconf, fun _ => Nat.succ_pos k⟩
    · rw [Phase.boot, if_neg hlt]
      obtain rfl : k = maxTries := Nat.le_antisymm htries (Nat.le_of_not_lt hlt)
      exact ⟨hconf, 0, rfl⟩
  | rolledBack =>
    obtain ⟨hconf, n, rfl⟩ := h
    refine ⟨hconf, n + 1, ?_⟩
    rw [List.replicate_succ', List.append_assoc, List.cons_append]
    rfl
  | confirmed =>
    obtain ⟨k, n, hconf, h1, h3, rfl⟩ := h
    exact ⟨k, n + 1, hconf, h1, h3, List.replicate_succ'.symm⟩

/-- Confirming during the trial ends it, and does nothing afterwards. -/
theorem counted_confirm {t : Slot} {p : Phase} {f : Flash} {u : Slot} {ota : OtaState}
    {boots : List Boot} {conf : Option Nat} (hin : InPhase t p ⟨f, .app u ota⟩)
    (h : Counted t ⟨⟨f, .app u ota⟩, boots, conf⟩ p) (b : Board) :
    Counted t ⟨b, boots, if ota.status.Unconfirmed ∧ conf = none then some boots.length else conf⟩
      p.confirm := by
  obtain ⟨-, hp, ha, -⟩ := hin.cpu
  cases p with
  | trying k =>
    obtain ⟨rfl, rfl, hk⟩ := h
    rw [if_pos ⟨.inl hp, rfl⟩, List.length_replicate]
    exact ⟨k, 0, rfl, hk (by simp), hin.tries, rfl⟩
  | rolledBack =>
    have hno : ¬ ota.status.Unconfirmed := by
      rintro (hp' | ha')
      · exact absurd (hp'.symm.trans hp) (by simp [Phase.onTrial])
      · exact ha' ha
    rw [if_neg fun hc => hno hc.1]
    exact h
  | confirmed =>
    obtain ⟨k, n, rfl, h1, h3, hboots⟩ := h
    rw [if_neg fun hc => absurd hc.2 (by simp)]
    exact ⟨k, n, rfl, h1, h3, hboots⟩

/-- Any other event leaves the history alone. -/
theorem Counted.congr {t : Slot} {p : Phase} {h : Trial} {b : Board} (hc : Counted t h p)
    (hcpu : b.cpu ≠ .bootloader → h.board.cpu ≠ .bootloader) :
    Counted t ⟨b, h.boots, h.confirmed⟩ p := by
  cases p with
  | trying k => exact ⟨hc.1, hc.2.1, fun hne => hc.2.2 (hcpu hne)⟩
  | rolledBack => exact hc
  | confirmed => exact hc

theorem onTrack_step {t : Slot} {h h' : Trial} {e : Event} (ht : OnTrack t h) (hun : Uneventful e)
    (hs : (trials t).step h e h') : OnTrack t h' := by
  obtain ⟨p, hin, hc⟩ := ht
  obtain ⟨⟨f, cpu⟩, boots, conf⟩ := h
  obtain ⟨b', hb, rfl⟩ := Option.map_eq_some_iff.mp hs
  refine ⟨p.after t e, inPhase_step hin hun hb, ?_⟩
  rcases Board.step_cases hb with ⟨rfl, rfl⟩ | ⟨power, rfl, rfl, rfl⟩ | ⟨ok, slot, rfl, rfl, rfl⟩ |
      ⟨c, slot, ota, rfl, rfl, rfl⟩ | ⟨ok, slot, ota, a, r, rfl, -⟩ | ⟨ok, slot, ota, a, rfl, -⟩ |
      ⟨ok, slot, ota, rfl, rfl, rfl⟩
  · exact hc.congr fun hne => absurd rfl hne
  · obtain rfl := eq_allOk hun
    have := counted_boot hc hin.tries ⟨(main allOk f).1, .afterBoot (main allOk f).2⟩
    rwa [← (boot_inPhase hin).1] at this
  · exact hc.congr fun _ => by simp
  · exact hc.congr fun _ => by simp
  · exact hun.elim
  · exact hun.elim
  · exact counted_confirm hin hc _

theorem onTrack_reachable {t : Slot} {h : Trial}
    (hr : (trials t).ReachableWhen (fun _ e => Uneventful e) h) : OnTrack t h :=
  hr.inv (fun _ => onTrack_init) fun _ _ _ => onTrack_step

/-- **Bounded probation.** Unconfirmed, the new image gets three boots, then the
record is turned back and every later boot is of the old image; confirmed in
one of the three, every later boot is of the new one. -/
theorem probation_bounded {t : Slot} {h : Trial}
    (hr : (trials t).ReachableWhen (fun _ e => Uneventful e) h) :
    (∃ m, readMetadata h.board.flash.image = some m ∧ m.bootAttempts ≤ otaMaxBootAttempts ∧
      (m.pendingVerify = 0 → m.bootAttempts = 0)) ∧
    (h.confirmed = none →
      (∃ k ≤ 3, h.boots = List.replicate k (.jumped t)) ∨
      (∃ n, h.boots
          = List.replicate 3 (.jumped t) ++ .rebooted :: List.replicate n (.jumped t.other)) ∧
        ∃ m, readMetadata h.board.flash.image = some m ∧ m.activeSlot = t.other.byte ∧
          m.pendingVerify = 0 ∧ m.bootAttempts = 0) ∧
    (∀ k, h.confirmed = some k →
      1 ≤ k ∧ k ≤ 3 ∧ ∃ n, h.boots = List.replicate (k + n) (.jumped t)) := by
  obtain ⟨p, ⟨⟨m, hm, hshow⟩, htries, -, -⟩, hc⟩ := onTrack_reachable hr
  refine ⟨⟨m, hm, ?_, ?_⟩, ?_⟩
  · rw [hshow.attempts]
    have hle : p.tries ≤ 3 := htries
    generalize p.tries = k at hle
    interval_cases k <;> decide
  · intro h0
    rw [hshow.pending] at h0
    rw [hshow.attempts]
    cases p with
    | trying k => exact absurd h0 (by simp [Phase.onTrial])
    | rolledBack => rfl
    | confirmed => rfl
  · cases p with
    | trying k =>
      obtain ⟨hboots, hconf, -⟩ := hc
      exact ⟨fun _ => .inl ⟨k, htries, hboots⟩, fun _ h => absurd (hconf.symm.trans h) (by simp)⟩
    | rolledBack =>
      obtain ⟨hconf, hboots⟩ := hc
      exact ⟨fun _ => .inr ⟨hboots, m, hm, hshow.active, hshow.pending, hshow.attempts⟩,
        fun _ h => absurd (hconf.symm.trans h) (by simp)⟩
    | confirmed =>
      obtain ⟨k, n, hconf, h1, h3, hboots⟩ := hc
      refine ⟨fun h => absurd (hconf.symm.trans h) (by simp), fun k' h => ?_⟩
      obtain rfl : k = k' := Option.some.inj (hconf.symm.trans h)
      exact ⟨h1, h3, n, hboots⟩

/-- A board whose slot A has just applied the image in slot B. -/
def appliedBoard : Board where
  flash := ⟨NorFlash.program otaMetadataOffset
    { freshRecord .a with activeSlot := 1, pendingVerify := 1 }.seal.page
    (NorFlash.program Slot.b.offset bootable.1
      (NorFlash.program Slot.a.offset bootable.1 fun _ => 0xFF)), []⟩
  cpu := .bootloader

theorem appliedBoard_applied : Applied .b appliedBoard := by
  have hblank : Blank otaMetadataOffset flashPageSize (NorFlash.program Slot.b.offset bootable.1
      (NorFlash.program Slot.a.offset bootable.1 fun _ => 0xFF)) := by
    intro i _
    have ha : Slot.a.offset + bootable.1.length ≤ otaMetadataOffset := by
      rw [bootable_length]; decide
    have hb : Slot.b.offset + bootable.1.length ≤ otaMetadataOffset := by
      rw [bootable_length]; decide
    rw [program_outside (.inr (by omega)), program_outside (.inr (by omega))]
  refine ⟨rfl, ⟨_, readMetadata_program rfl rfl hblank, rfl, rfl, rfl⟩, fun u => ?_⟩
  have hsame : SameSlots (NorFlash.program Slot.b.offset bootable.1
      (NorFlash.program Slot.a.offset bootable.1 fun _ => 0xFF)) appliedBoard.flash.image :=
    program_sameOutside _ (Nat.le_refl _) (by rw [OtaMetadata.page_length]; decide)
  rw [(hsame.slot u).valid_eq]
  cases u <;> decide +kernel

theorem appliedBoard_bounded : ∃ h,
    (trials .b).ReachableWhen (fun _ e => Uneventful e) h ∧ h.boots = [.jumped .b] ∧
    ∃ m, readMetadata h.board.flash.image = some m ∧ m.bootAttempts ≤ otaMaxBootAttempts ∧
      (m.pendingVerify = 0 → m.bootAttempts = 0) := by
  have hi : (trials .b).init ⟨appliedBoard, [], none⟩ := ⟨appliedBoard_applied, rfl, rfl⟩
  obtain ⟨m, hr, ha, hp, hn⟩ := appliedBoard_applied.record
  have hin : InPhase .b (.trying 0) ⟨appliedBoard.flash, .bootloader⟩ :=
    ⟨⟨m, hr, ha, hp, hn⟩, Nat.zero_le _, appliedBoard_applied.valid, trivial⟩
  have hreach : (trials .b).ReachableWhen (fun _ e => Uneventful e)
      ⟨⟨(main allOk appliedBoard.flash).1, .afterBoot (main allOk appliedBoard.flash).2⟩,
        [(main allOk appliedBoard.flash).2], none⟩ :=
    .tail (.init hi) (a := .boot allOk) (fun _ => rfl) rfl
  refine ⟨_, hreach, ?_, (probation_bounded hreach).1⟩
  rw [(boot_inPhase hin).1]
  rfl

end PicoBLE.Ota
