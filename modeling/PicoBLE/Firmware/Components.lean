import PicoBLE.Firmware.Device
import PicoBLE.Ota.Probation

/-!
# Each component behaves as it does alone

What has been shown of the board, of the shells and of the table of bindings
has been shown of each of them alone, with the rest of the firmware left out or
left open. On the device they run together. Whatever the device does, each of
them is in a state that it could have reached by itself:

* **D1.** The board, as far as it looks at the flash.
* **D2.** The shells. To them the calls of `ota.c` and the saves of other
  records are writes elsewhere in the flash.
* **D3.** The table, with what has happened to its slots.

So what is true of each of them alone is true on the device.
-/

namespace PicoBLE.Firmware

open NorFlash
open PicoBLE.Ota (Flash Board Cpu Alike Protected flashSectorSize otaMetadataOffset otaRegion boards
  footed_reachable slot_metadata appliedBoard appliedBoard_applied boot_attempt)
open PicoBLE.Cli (Machine StoreCall SameScripts machine step_store)
open PicoBLE.System (Bindings Turn BindEvent EventWorld TableInv eventWorlds eventInv_reachable
  bindTargetMax bindStorageOffset bindingsSave)
open PicoBLE.Storage

/-! ## Who writes where -/

/-- The record of the board is in front of everything else that is stored. -/
theorem otaRegion_front : otaMetadataOffset + flashSectorSize = scriptStorageOffset := rfl

theorem otaRegion_agree {f g : Image} (h : ∀ a < scriptStorageOffset, g a = f a) :
    Set.EqOn f g otaRegion :=
  fun a ha => (h a (otaRegion_front ▸ ha.2)).symm

/-- What is behind the record is not the board's. -/
theorem protected_behind (cpu : Cpu) {a : Nat} (ha : scriptStorageOffset ≤ a) :
    Protected cpu a := by
  refine ⟨.inr ha, fun slot _ _ => .inr ?_⟩
  have hend := slot_metadata slot.other
  have hfront : otaMetadataOffset ≤ scriptStorageOffset := by decide
  omega

theorem StoreCall.run_front (c : StoreCall) (f : Flash) {a : Nat} (ha : a < scriptStorageOffset) :
    (c.run f).image a = f.image a := by
  have hframe := c.run_frame f
  split at hframe
  · next slot _ =>
    refine hframe a (.inl ?_)
    unfold ScriptSlot.offset
    omega
  · rw [hframe]

/-- What happens to the shells by themselves is a call of the store, or leaves the flash. -/
theorem shell_flash {m m' : Machine} {e : Cli.Event} (he : ofShells e = true)
    (hm : m.step e = some m') :
    (∃ c, m.storeCall e = some c ∧ m'.fw.flash = c.run m.fw.flash) ∨
      m.storeCall e = none ∧ m'.fw.flash = m.fw.flash := by
  rcases step_store hm with hcall | ⟨hnone, hsame | ⟨rfl, -⟩⟩
  · exact .inl hcall
  · exact .inr ⟨hnone, hsame⟩
  · exact absurd he Bool.false_ne_true

theorem fire_flash {m m' : Machine} {line : List UInt8} (hm : m.step (.fire line) = some m') :
    m'.fw.flash = m.fw.flash := by
  rcases step_store hm with ⟨c, hc, -⟩ | ⟨-, hsame | ⟨he, -⟩⟩
  · exact absurd hc (by simp [Machine.storeCall])
  · exact hsame
  · exact absurd he (by simp)

theorem bindingsSave_sameOutside (ok : Nat → Bool) (t : System.BindTable) (f : Flash) :
    SameOutside bindStorageOffset flashSectorSize f.image (bindingsSave ok t f).1.image :=
  rewriteSector_sameOutside ok f (Nat.le_of_eq (System.DiskRecord.sector_length _))

theorem configSaveWifi_sameOutside (ok : Nat → Bool) (creds : Option WifiCreds) (f : Flash) :
    SameOutside configSectorOffset flashSectorSize f.image (configSaveWifi ok creds f).1.image := by
  cases creds with
  | none => exact SameOutside.refl _ _ _
  | some c =>
    by_cases hc : c.Sound
    · rw [configSaveWifi_sound hc]
      refine rewriteSector_sameOutside ok f ?_
      rw [ConfigRecord.page_length]
      decide
    · rw [configSaveWifi_refused hc]
      exact SameOutside.refl _ _ _

theorem configClearWifi_sameOutside (ok : Bool) (f : Flash) :
    SameOutside configSectorOffset flashSectorSize f.image (configClearWifi ok f).1.image := by
  cases ok with
  | false => exact SameOutside.refl _ _ _
  | true => exact erase_sameOutside _ (Nat.le_refl _) (Nat.le_refl _)

/-- Only the board writes in front of the scripts. -/
theorem Stepped.front {d d' : Device} {e : Event} (h : Stepped d e d')
    (he : ∀ e', e ≠ .board e') {a : Nat} (ha : a < scriptStorageOffset) :
    d'.flash.image a = d.flash.image a := by
  have hbind : scriptStorageOffset ≤ bindStorageOffset := by decide
  have hconfig : scriptStorageOffset ≤ configSectorOffset := by decide
  cases h with
  | board => exact absurd rfl (he _)
  | @shell e m _ hown hm =>
    show m.fw.flash.image a = d.m.fw.flash.image a
    rcases shell_flash hown hm with ⟨c, -, hflash⟩ | ⟨-, hflash⟩
    · rw [hflash]
      exact StoreCall.run_front c _ ha
    · rw [hflash]
  | table => exact Eq.refl (d.m.fw.flash.image a)
  | visit => exact Eq.refl (d.m.fw.flash.image a)
  | loadBindings => exact Eq.refl (d.m.fw.flash.image a)
  | fire _ _ hm => exact congrArg (fun f : Flash => f.image a) (fire_flash hm)
  | saveBindings => exact bindingsSave_sameOutside _ _ _ a (.inl (by omega))
  | saveWifi => exact configSaveWifi_sameOutside _ _ _ a (.inl (by omega))
  | clearWifi => exact configClearWifi_sameOutside _ _ a (.inl (by omega))

/-! ## One step -/

/-- A write to the flash is one step of the shells, if the run loop turns and the scripts stay. -/
theorem machine_elsewhere {m : Machine} (h : machine.Reachable m)
    (hpolls : m.polls = true) {f : Flash} (hsame : SameScripts m.fw.flash f) :
    machine.Reachable { m with fw := { m.fw with flash := f } } := by
  have hint : m.interrupt (.elsewhere f) = some { m with fw := { m.fw with flash := f } } := by
    unfold Machine.interrupt
    dsimp only
    rw [if_pos hsame]
  have hstep : m.step (.elsewhere f) = some { m with fw := { m.fw with flash := f } } := by
    rw [Machine.step, if_pos hpolls, hint]
    exact fun t => by simp
  exact h.tail hstep

theorem sameScripts_of_outside {off : Nat} {f g : Flash}
    (h : SameOutside off flashSectorSize f.image g.image)
    (hoff : scriptStorageOffset + scriptSlotCount * scriptSlotSize ≤ off) : SameScripts f g :=
  fun a hlt _ => h a (.inl (by omega))

theorem eventWorlds_turns {w : EventWorld} (h : eventWorlds.Reachable w) (as : List Turn) :
    ∃ w', eventWorlds.Reachable w' ∧ w'.b = as.foldl Bindings.turn w.b := by
  induction as generalizing w with
  | nil => exact ⟨w, h, rfl⟩
  | cons a as ih => exact ih (w := w.next a) (h.tail rfl)

/-- `bindings_load`, turn by turn. -/
theorem eventWorlds_load {w : EventWorld} (h : eventWorlds.Reachable w) (f : Image) :
    ∃ w', eventWorlds.Reachable w' ∧ w'.b = (w.b.load f).1 := by
  obtain ⟨w', hr, hb⟩ := eventWorlds_turns h (BindEvent.load f).turns
  exact ⟨w', hr, hb.trans (w.b.next_turns (.load f)).symm⟩

/-- Each component is where it could have come by itself. -/
structure Joined (d : Device) : Prop where
  /-- D1 -/
  board : ∃ b, boards.Reachable b ∧ Alike b d.board
  /-- D2 -/
  shells : d.running = true → machine.Reachable d.m
  /-- D3 -/
  table : d.running = true → ∃ w, eventWorlds.Reachable w ∧ w.b = d.b

/-- The application knows what it has staged. -/
theorem Joined.knows {d : Device} (h : Joined d) : d.board.Knows := by
  obtain ⟨b, hr, halike⟩ := h.board
  exact halike.knows (footed_reachable hr).knows

/-- The application is running after an event of the board: it has just been set up, or it was
running, the run loop turned, and the event was a call. -/
theorem running_afterBoard {d : Device} {e : Ota.Event} {b : Board} (hadm : d.admits e = true)
    (hb : d.board.step e = some b) (hrun : (d.afterBoard b e).running = true) :
    (∃ ok, e = .init ok) ∨ d.turns = true ∧
    d.afterBoard b e = { d.withFlash b.flash with cpu := b.cpu } := by
  have hstart : ∀ {slot ota}, d.board.cpu = .app slot ota → d.running = true :=
    fun hc => d.running_iff.mpr ⟨_, _, hc⟩
  rcases Board.step_cases hb with ⟨rfl, rfl⟩ | ⟨power, rfl, -, rfl⟩ | ⟨ok, slot, rfl, -, -⟩ |
    ⟨c, slot, ota, rfl, hc, rfl⟩ | ⟨ok, slot, ota, a, r, rfl, hc, -, rfl⟩ |
    ⟨ok, slot, ota, a, rfl, -, -, rfl⟩ | ⟨ok, slot, ota, rfl, hc, rfl⟩
  · exact absurd hrun Bool.false_ne_true
  · obtain ⟨slot, ota, hcpu⟩ := Device.running_iff _ |>.mp hrun
    have hcpu : Cpu.afterBoot (Bootloader.main power d.board.flash).2 = .app slot ota := hcpu
    cases hr : (Bootloader.main power d.board.flash).2 <;> rw [hr] at hcpu <;>
      exact absurd hcpu (by simp [Cpu.afterBoot])
  · exact .inl ⟨ok, rfl⟩
  · exact .inr ⟨d.turns_iff.mpr ⟨hstart hc, hadm⟩, rfl⟩
  · exact .inr ⟨d.turns_iff.mpr ⟨hstart hc, hadm⟩, rfl⟩
  · exact absurd hrun Bool.false_ne_true
  · exact .inr ⟨d.turns_iff.mpr ⟨hstart hc, hadm⟩, rfl⟩

/-- The board of a device after an event of the board. -/
theorem board_afterBoard (d : Device) (b : Board) (e : Ota.Event) :
    (d.afterBoard b e).board = b := by
  cases e <;> rfl

/-- Another component has made a step, in front of which the board has nothing to see. -/
theorem Joined.beside {d d' : Device} (h : Joined d) (hcpu : d'.cpu = d.cpu)
    (hfront : ∀ a < scriptStorageOffset, d'.flash.image a = d.flash.image a) :
    ∃ b, boards.Reachable b ∧ Alike b d'.board := by
  obtain ⟨b, hr, halike⟩ := h.board
  exact ⟨b, hr, hcpu.trans halike.cpu, halike.image.trans (otaRegion_agree hfront)⟩

/-- The table has changed. -/
theorem Joined.withTable {d : Device} {b : Bindings} (h : Joined d)
    (hb : d.running = true → ∃ w, eventWorlds.Reachable w ∧ w.b = b) : Joined { d with b := b } :=
  ⟨h.board, h.shells, hb⟩

theorem Joined.turn {d : Device} (h : Joined d) (hrun : d.running = true) (a : Turn) :
    ∃ w, eventWorlds.Reachable w ∧ w.b = d.b.turn a := by
  obtain ⟨w, hw, hb⟩ := h.table hrun
  exact ⟨w.next a, hw.tail rfl, congrArg (fun b => Bindings.turn b a) hb⟩

theorem Joined.step {d d' : Device} {e : Event} (h : Joined d) (hs : Stepped d e d') :
    Joined d' := by
  have hbind : scriptStorageOffset + scriptSlotCount * scriptSlotSize ≤ bindStorageOffset := by
    decide
  have hconfig : scriptStorageOffset + scriptSlotCount * scriptSlotSize ≤ configSectorOffset := by
    decide
  have hfront := @hs.front
  cases hs with
  | @board e b hadm hb =>
    obtain ⟨a, hr, halike⟩ := h.board
    obtain ⟨a', hstep, halike'⟩ := halike.step hb
    refine ⟨⟨a', hr.tail hstep, by rwa [board_afterBoard]⟩, fun hrun => ?_, fun hrun => ?_⟩
    · rcases running_afterBoard hadm hb hrun with ⟨ok, rfl⟩ | ⟨hturns, he⟩
      · exact .init ⟨b.flash, rfl⟩
      · obtain ⟨hwas, hpolls⟩ := d.turns_iff.mp hturns
        rw [he]
        -- the calls of `ota.c` stay in front of the scripts
        exact machine_elsewhere (h.shells hwas) hpolls fun a _ hle =>
          h.knows.step_protected hb (protected_behind _ hle)
    · rcases running_afterBoard hadm hb hrun with ⟨ok, rfl⟩ | ⟨hturns, he⟩
      · obtain ⟨w, hw, hload⟩ :=
          @eventWorlds_load { b := .zero, history := [] } (.init rfl) b.flash.image
        rw [Device.afterBoard_init]
        dsimp only
        rw [Bindings.init_zero]
        exact ⟨w, hw, hload⟩
      · rw [he]
        exact h.table (d.turns_iff.mp hturns).1
  | @shell e m hrun _ hm =>
    exact ⟨h.beside rfl fun a ha => hfront (by simp) ha, fun _ => (h.shells hrun).tail hm, h.table⟩
  | @table a hper => exact h.withTable fun hrun => h.turn hrun a
  | @visit i ht hnone => exact h.withTable fun hrun => h.turn hrun (.visit i)
  | @fire i line m ht hline hm =>
    obtain ⟨hrun, -⟩ := d.turns_iff.mp ht
    exact ⟨h.beside rfl fun a ha => hfront (by simp) ha, fun _ => (h.shells hrun).tail hm,
      fun _ => h.turn hrun (.visit i)⟩
  | loadBindings ht =>
    refine h.withTable fun hrun => ?_
    obtain ⟨w, hw, hb⟩ := h.table hrun
    rw [← hb]
    exact eventWorlds_load hw d.flash.image
  | saveBindings ht =>
    obtain ⟨hrun, hpolls⟩ := d.turns_iff.mp ht
    refine ⟨h.beside rfl fun a ha => hfront (by simp) ha, fun _ => ?_, h.table⟩
    exact machine_elsewhere (h.shells hrun) hpolls
      (sameScripts_of_outside (bindingsSave_sameOutside _ _ _) hbind)
  | saveWifi ht =>
    obtain ⟨hrun, hpolls⟩ := d.turns_iff.mp ht
    refine ⟨h.beside rfl fun a ha => hfront (by simp) ha, fun _ => ?_, h.table⟩
    exact machine_elsewhere (h.shells hrun) hpolls
      (sameScripts_of_outside (configSaveWifi_sameOutside _ _ _) hconfig)
  | clearWifi ht =>
    obtain ⟨hrun, hpolls⟩ := d.turns_iff.mp ht
    refine ⟨h.beside rfl fun a ha => hfront (by simp) ha, fun _ => ?_, h.table⟩
    exact machine_elsewhere (h.shells hrun) hpolls
      (sameScripts_of_outside (configClearWifi_sameOutside _ _) hconfig)

/-- The board, as it is when power comes on. -/
theorem joined_init {d : Device} (h : devices.init d) : Joined d := by
  have hcpu : d.cpu = .bootloader := h
  have hrun : d.running ≠ true := by
    rw [Device.running, hcpu]
    exact Bool.false_ne_true
  refine ⟨⟨⟨⟨d.flash.image, []⟩, .bootloader⟩, .init ⟨rfl, rfl⟩, hcpu, fun _ _ => rfl⟩,
    fun hyes => absurd hyes hrun, fun hyes => absurd hyes hrun⟩

theorem joined_reachable {d : Device} (h : devices.Reachable d) : Joined d :=
  h.inv (fun _ hi => joined_init hi) fun _ _ _ hj _ hs => hj.step (Device.step_cases hs)

/-! ## D1 to D3 -/

/-- A binding whose turn it is can be dispatched. -/
theorem dispatch_some {d : Device} (hinv : TableInv d.b.slots) (hpolls : d.m.polls = true)
    (i : Fin System.bindSlotCount) : (d.dispatch i).isSome := by
  unfold Device.dispatch
  cases hvisit : (d.b.visit i).2 with
  | none => rfl
  | some line =>
    -- the targets in the table are short enough for the buffer
    have hlen : line.length ≤ bindTargetMax := by
      unfold Bindings.visit at hvisit
      split at hvisit
      · next hdue =>
        have hused := (Bool.and_eq_true_iff.mp hdue).1
        obtain ⟨target, hnul, htarget, hslot⟩ := hinv.targets i hused
        rw [← Option.some.inj hvisit, hinv.line hused, hslot,
          System.ofBuffer_targetBuffer hnul htarget]
        exact htarget
      · exact absurd hvisit (by simp)
    have hint : (d.m.interrupt (.fire line)).isSome := by
      unfold Machine.interrupt
      dsimp only
      rw [if_pos hlen]
      rfl
    obtain ⟨m, hm⟩ := Option.isSome_iff_exists.mp hint
    have hstep : d.m.step (.fire line) = some m := by
      rw [Machine.step, if_pos hpolls, hm]
      exact fun t => by simp
    dsimp only
    rw [hstep]
    rfl

/-- **Each component behaves as it does alone.** In every state of the device, some board on its own
could have come to the same state of the processor and of `ota.c`, with the same slots and the same
record; while the application runs, the shells could have come on their own to where they are, and
so could the table of bindings; and whenever `bindings_dispatch_pending` comes to a slot, it can go
ahead. -/
theorem components_alone {d : Device} (h : devices.Reachable d) :
    (∃ b, boards.Reachable b ∧ b.cpu = d.cpu ∧ Set.EqOn b.flash.image d.flash.image otaRegion) ∧
    (d.running = true → machine.Reachable d.m ∧ ∃ w, eventWorlds.Reachable w ∧ w.b = d.b) ∧
    (d.turns = true → ∀ i, (d.step (.dispatch i)).isSome) := by
  have hj := joined_reachable h
  obtain ⟨b, hr, halike⟩ := hj.board
  refine ⟨⟨b, hr, halike.cpu.symm, halike.image⟩, fun hrun => ⟨hj.shells hrun, hj.table hrun⟩,
    fun ht i => ?_⟩
  obtain ⟨hrun, hpolls⟩ := d.turns_iff.mp ht
  obtain ⟨w, hw, hb⟩ := hj.table hrun
  have hinv := (eventInv_reachable hw).1
  rw [hb] at hinv
  rw [Device.step, if_pos ht]
  exact dispatch_some hinv hpolls i

/-- A device whose slot A has just applied the image in slot B. -/
def appliedDevice : Device :=
  { cpu := .bootloader, m := Machine.boot appliedBoard.flash, b := .zero }

/-- The set-up of `main`. -/
theorem step_init {d : Device} {slot : Ota.Slot} (hcpu : d.cpu = .started slot) (ok : Nat → Bool) :
    ∃ f ota,
    d.step (.board (.init ok)) =
      some { cpu := .app slot ota, m := Machine.boot f, b := Bindings.zero.init f.image } := by
  have hadm : d.admits (.init ok) = true := rfl
  have hboard : ∃ f ota, d.board.step (.init ok) = some ⟨f, .app slot ota⟩ := by
    refine ⟨(Ota.otaInit slot ok ⟨d.flash, .zero⟩).flash,
      (Ota.otaInit slot ok ⟨d.flash, .zero⟩).ota, ?_⟩
    rw [Device.board, hcpu]
    rfl
  obtain ⟨f, ota, hb⟩ := hboard
  refine ⟨f, ota, ?_⟩
  rw [Device.step, if_pos hadm, hb]
  rfl

/-- It comes up in slot B. -/
theorem appliedDevice_runs : ∃ (d : Device) (ota : Ota.OtaState),
    devices.Runs (fun _ e => ∃ e', e = .board e') appliedDevice [.board (.boot Ota.allOk),
      .board (.init Ota.allOk)] d ∧
      d.cpu = .app .b ota ∧ d.turns = true ∧ d.b = Bindings.zero.init d.flash.image := by
  obtain ⟨m, hr, ha, hp, hn⟩ := appliedBoard_applied.record
  obtain ⟨f, he, -⟩ := boot_attempt (t := .b) hr ha (by rw [hp]; decide) (by rw [hn]; decide)
    (appliedBoard_applied.valid .b)
  have hboot : appliedDevice.board.step (.boot Ota.allOk) = some ⟨f, .started .b⟩ := by
    show some (Board.mk (Bootloader.main Ota.allOk appliedBoard.flash).1
      (.afterBoot (Bootloader.main Ota.allOk appliedBoard.flash).2)) = _
    rw [he]
    rfl
  have hstep : appliedDevice.step (.board (.boot Ota.allOk)) =
      some { appliedDevice.withFlash f with cpu := .started .b } := by
    have hadm : appliedDevice.admits (.boot Ota.allOk) = true := rfl
    rw [Device.step, if_pos hadm, hboot]
    rfl
  obtain ⟨g, ota, hinit⟩ :=
    @step_init { appliedDevice.withFlash f with cpu := .started .b } .b rfl Ota.allOk
  refine ⟨_, ota, .cons ⟨_, rfl⟩ hstep (.cons ⟨_, rfl⟩ hinit (.nil _)), rfl, rfl, ?_⟩
  dsimp only [Device.flash, Machine.boot, Cli.Fw.boot]

theorem appliedDevice_up : ∃ (d : Device) (ota : Ota.OtaState),
    devices.Reachable d ∧ d.cpu = .app .b ota ∧ d.turns = true := by
  obtain ⟨d, ota, hrun, hcpu, hturns, -⟩ := appliedDevice_runs
  exact ⟨d, ota, (hrun.mono fun _ _ _ => trivial).reachableWhen (.init rfl), hcpu, hturns⟩

/-- Its shells, its table and its board are as they would be alone. -/
theorem appliedDevice_alone : ∃ (d : Device) (ota : Ota.OtaState), d.cpu = .app .b ota ∧
    (∃ b, boards.Reachable b ∧ b.cpu = d.cpu ∧ Set.EqOn b.flash.image d.flash.image otaRegion) ∧
    machine.Reachable d.m ∧ ∀ i, (d.step (.dispatch i)).isSome := by
  obtain ⟨d, ota, hd, hcpu, hturns⟩ := appliedDevice_up
  obtain ⟨hboard, hrun, hdispatch⟩ := components_alone hd
  exact ⟨d, ota, hcpu, hboard, (hrun (d.turns_iff.mp hturns).1).1, hdispatch hturns⟩

end PicoBLE.Firmware
