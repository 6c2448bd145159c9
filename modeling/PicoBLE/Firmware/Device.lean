import PicoBLE.Cli.Store
import PicoBLE.Ota.Locality
import PicoBLE.Storage.Credentials
import PicoBLE.System.BindingEvents
import PicoBLE.System.BindingRecord

/-!
# The device

The parts of the firmware have been looked at one by one: the board with its
bootloader and `ota.c`, the shells, the table of bindings, and the records in
the flash. Here they share what they share in `main.c`: one processor, one
flash, and one stack on which a command waits while the timers run.

A reset can come at any moment, an interrupt whenever the application runs.
Everything else comes out of the run loop, and that only turns while the
innermost frame waits, or there is none.
-/

namespace PicoBLE.Firmware

open NorFlash
open PicoBLE.Ota (Flash Board Cpu)
open PicoBLE.Cli (Machine)
open PicoBLE.System (Bindings Turn bindSlotCount bindingsSave)
open PicoBLE.Storage (WifiCreds configSaveWifi configClearWifi)

/-- The processor, the shells and the bindings. The flash is the one the shells see. -/
structure Device where
  cpu : Cpu
  m : Machine
  b : Bindings

namespace Device

variable (d : Device)

def flash : Flash := d.m.fw.flash

/-- What the bootloader and `ota.c` work on. -/
def board : Board := ⟨d.flash, d.cpu⟩

/-- Someone has written to the flash. -/
def withFlash (f : Flash) : Device := { d with m := { d.m with fw := { d.m.fw with flash := f } } }

/-- `main` is through with its set-up. -/
def running : Bool :=
  match d.cpu with
  | .app _ _ => true
  | _ => false

/-- The run loop turns. -/
def turns : Bool := d.running && d.m.polls

@[simp] theorem withFlash_flash (f : Flash) : (d.withFlash f).flash = f := rfl

@[simp] theorem withFlash_cpu (f : Flash) : (d.withFlash f).cpu = d.cpu := rfl

theorem running_iff : d.running = true ↔ ∃ slot ota, d.cpu = .app slot ota := by
  unfold running
  cases d.cpu <;> simp

theorem turns_iff : d.turns = true ↔ d.running = true ∧ d.m.polls = true := Bool.and_eq_true_iff

end Device

/-! ## What can happen -/

inductive Event where
  /-- A reset, a run of the bootloader, the set-up, or a call of `ota.c`. -/
  | board (e : Ota.Event)
  /-- What happens to the shells. -/
  | shell (e : Cli.Event)
  /-- `gpio_irq_cb`, `bindings_add`, `bindings_remove`, or a turn of `bindings_clear_all`. -/
  | table (a : Turn)
  /-- A turn of `bindings_dispatch_pending`, with the start of the target it dispatches. -/
  | dispatch (i : Fin bindSlotCount)
  /-- `bindings_load`. -/
  | loadBindings
  /-- `bindings_save`. -/
  | saveBindings (ok : Nat → Bool)
  /-- `config_save_wifi`. -/
  | saveWifi (ok : Nat → Bool) (creds : Option WifiCreds)
  /-- `config_clear_wifi`. -/
  | clearWifi (ok : Bool)

/-- What can happen to the shells by themselves: no binding fires and nobody else writes to the
flash. -/
def ofShells : Cli.Event → Bool
  | .fire _ => false
  | .elsewhere _ => false
  | _ => true

/-- `ota.c` is called out of the run loop, once it is set up. -/
def Device.admits (d : Device) : Ota.Event → Bool
  | .call _ => d.m.polls
  | .apply _ => d.m.polls
  | .confirm _ => d.m.polls
  | _ => true

/-- The calls that change the table: an interrupt at any time, the others out of the run loop. -/
def Device.permits (d : Device) : Turn → Bool
  | .irq _ _ _ => d.running
  | .add _ _ _ _ => d.turns
  | .remove _ => d.turns
  | .clear _ => d.turns
  | .drop _ => false
  | .visit _ => false

/-- What the board has come to. The set-up of `main` starts the shells and loads the bindings. -/
def Device.afterBoard (d : Device) (b : Board) : Ota.Event → Device
  | .init _ => { cpu := b.cpu, m := Machine.boot b.flash, b := Bindings.zero.init b.flash.image }
  | _ => { d.withFlash b.flash with cpu := b.cpu }

theorem Device.afterBoard_init (d : Device) (b : Board) (ok : Nat → Bool) :
    d.afterBoard b (.init ok) =
      { cpu := b.cpu, m := Machine.boot b.flash, b := Bindings.zero.init b.flash.image } := rfl

/-- A turn of `bindings_dispatch_pending`. -/
def Device.dispatch (d : Device) (i : Fin bindSlotCount) : Option Device :=
  match (d.b.visit i).2 with
  | none => some { d with b := (d.b.visit i).1 }
  | some line => (d.m.step (.fire line)).map fun m => { d with m := m, b := (d.b.visit i).1 }

def Device.step (d : Device) : Event → Option Device
  | .board e => if d.admits e then (d.board.step e).map fun b => d.afterBoard b e else none
  | .shell e => if d.running ∧ ofShells e then (d.m.step e).map fun m => { d with m := m } else none
  | .table a => if d.permits a then some { d with b := d.b.turn a } else none
  | .dispatch i => if d.turns then d.dispatch i else none
  | .loadBindings => if d.turns then some { d with b := (d.b.load d.flash.image).1 } else none
  | .saveBindings ok =>
    if d.turns then some (d.withFlash (bindingsSave ok d.b.slots d.flash).1) else none
  | .saveWifi ok creds =>
    if d.turns then some (d.withFlash (configSaveWifi ok creds d.flash).1) else none
  | .clearWifi ok => if d.turns then some (d.withFlash (configClearWifi ok d.flash).1) else none

/-- Power comes on, whatever is in the flash and in the memory. -/
def devices : LTS Device Event := LTS.ofFun (fun d => d.cpu = .bootloader) Device.step

/-! ## What a step can do -/

/-- Each kind of step, with what makes it possible and what it leads to. -/
inductive Stepped (d : Device) : Event → Device → Prop where
  | board {e : Ota.Event} {b : Board} (hadm : d.admits e = true) (hb : d.board.step e = some b) :
      Stepped d (.board e) (d.afterBoard b e)
  | shell {e : Cli.Event} {m : Machine} (hrun : d.running = true) (he : ofShells e = true)
      (hm : d.m.step e = some m) : Stepped d (.shell e) { d with m := m }
  | table {a : Turn} (hper : d.permits a = true) : Stepped d (.table a) { d with b := d.b.turn a }
  | visit {i : Fin bindSlotCount} (ht : d.turns = true) (hnone : (d.b.visit i).2 = none) :
      Stepped d (.dispatch i) { d with b := d.b.turn (.visit i) }
  | fire {i : Fin bindSlotCount} {line : List UInt8} {m : Machine} (ht : d.turns = true)
      (hline : (d.b.visit i).2 = some line) (hm : d.m.step (.fire line) = some m) :
      Stepped d (.dispatch i) { d with m := m, b := d.b.turn (.visit i) }
  | loadBindings (ht : d.turns = true) :
      Stepped d .loadBindings { d with b := (d.b.load d.flash.image).1 }
  | saveBindings {ok : Nat → Bool} (ht : d.turns = true) :
      Stepped d (.saveBindings ok) (d.withFlash (bindingsSave ok d.b.slots d.flash).1)
  | saveWifi {ok : Nat → Bool} {creds : Option WifiCreds} (ht : d.turns = true) :
      Stepped d (.saveWifi ok creds) (d.withFlash (configSaveWifi ok creds d.flash).1)
  | clearWifi {ok : Bool} (ht : d.turns = true) :
      Stepped d (.clearWifi ok) (d.withFlash (configClearWifi ok d.flash).1)

/-- **What an event can do to the device.** -/
theorem Device.step_cases {d d' : Device} {e : Event} (h : d.step e = some d') :
    Stepped d e d' := by
  cases e with
  | board e =>
    rw [Device.step] at h
    split at h
    · next hadm =>
      obtain ⟨b, hb, rfl⟩ := Option.map_eq_some_iff.mp h
      exact .board hadm hb
    · exact absurd h (by simp)
  | shell e =>
    rw [Device.step] at h
    split at h
    · next hboth =>
      obtain ⟨m, hm, rfl⟩ := Option.map_eq_some_iff.mp h
      exact .shell hboth.1 hboth.2 hm
    · exact absurd h (by simp)
  | table a =>
    rw [Device.step] at h
    split at h
    · next hper =>
      rw [← Option.some.inj h]
      exact .table hper
    · exact absurd h (by simp)
  | dispatch i =>
    rw [Device.step] at h
    split at h
    · next ht =>
      unfold Device.dispatch at h
      split at h
      · next hnone =>
        rw [← Option.some.inj h]
        exact .visit ht hnone
      · next line hline =>
        obtain ⟨m, hm, rfl⟩ := Option.map_eq_some_iff.mp h
        exact .fire ht hline hm
    · exact absurd h (by simp)
  | loadBindings =>
    rw [Device.step] at h
    split at h
    · next ht =>
      rw [← Option.some.inj h]
      exact .loadBindings ht
    · exact absurd h (by simp)
  | saveBindings ok =>
    rw [Device.step] at h
    split at h
    · next ht =>
      rw [← Option.some.inj h]
      exact .saveBindings ht
    · exact absurd h (by simp)
  | saveWifi ok creds =>
    rw [Device.step] at h
    split at h
    · next ht =>
      rw [← Option.some.inj h]
      exact .saveWifi ht
    · exact absurd h (by simp)
  | clearWifi ok =>
    rw [Device.step] at h
    split at h
    · next ht =>
      rw [← Option.some.inj h]
      exact .clearWifi ht
    · exact absurd h (by simp)

end PicoBLE.Firmware
