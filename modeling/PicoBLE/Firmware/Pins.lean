import PicoBLE.Firmware.Peripherals

/-!
# Who has the pins

Each driver knows what it has set up itself, and none looks at what another has
done to the pin since. So what a pin is connected to depends on the order of the
calls: PWM and the bindings take it each time, GPIO, ADC and I2C only the first
time. The same goes for the blocks that two drivers share, the ADC and a slice
of the PWM block.
-/

namespace PicoBLE.Firmware

open PicoBLE.Cli (gpioCtrlIsValid)
open PicoBLE.Drivers
open PicoBLE.System (Edge)
open LastWord

variable {χ : Type} {sdk : Sdk χ}

/-! ## What a call is about -/

namespace DriverCall

/-- The pin of a call of `gpio_ctrl.c` that is not refused. -/
def gpioPin : DriverCall → Option Nat
  | gpioWrite pin _ | gpioToggle pin | gpioRead pin =>
  if gpioCtrlIsValid pin then some pin else none
  | _ => none

/-- And of `adc_ctrl.c`. -/
def adcPin : DriverCall → Option Nat
  | adcRead pin => if adcCtrlIsValid pin then some pin else none
  | _ => none

/-- The bus. -/
def i2cBus : DriverCall → Option Nat
  | i2cScan bus cap => if bus ≥ i2cBusMax ∨ cap = 0 then none else some bus
  | i2cRead bus _ len => if bus ≥ i2cBusMax ∨ len = 0 then none else some bus
  | i2cWrite bus _ src => if bus ≥ i2cBusMax ∨ src.length = 0 then none else some bus
  | _ => none

/-- What a call that starts PWM hands to the hardware. -/
def pwmSetting : DriverCall → Option PwmSetting
  | pwmSet sysHz pin freqHz dutyPct => pwmCtrlSet sysHz pin freqHz dutyPct
  | _ => none

/-- The pin of a call that stops PWM. -/
def pwmOffPin : DriverCall → Option Nat
  | pwmOff pin => if pin > 29 then none else some pin
  | _ => none

/-- The pin of a binding that is set up. -/
def boundPin : DriverCall → Option Nat
  | refreshPinIrq pin mask => if mask ≠ ∅ then some pin else none
  | _ => none

def isTemp : DriverCall → Bool
  | tempRead => true
  | _ => false

end DriverCall

/-- The first call that is about this. -/
def FirstUse (use : DriverCall → Option Nat) (k : Nat) (before : List DriverCall) (c : DriverCall) :
    Prop :=
  use c = some k ∧ happened (fun b => use b = some k) before = false

instance (use : DriverCall → Option Nat) (k : Nat) (before : List DriverCall) (c : DriverCall) :
    Decidable (FirstUse use k before c) := inferInstanceAs (Decidable (_ ∧ _))

/-- **What the call connects the pin to**, if it does. -/
def takes (pin : Nat) (before : List DriverCall) (c : DriverCall) : Option PinFunc :=
  if c.pwmOffPin = some pin ∨ c.boundPin = some pin ∨ FirstUse DriverCall.gpioPin pin before c then
    some .sio
  else if c.pwmSetting.any fun set => set.pin.toNat = pin then some .pwm
  else if FirstUse DriverCall.adcPin pin before c then some .null
  else if ∃ bus < i2cBusMax, (pin = (busPins bus).1 ∨ pin = (busPins bus).2) ∧
      FirstUse DriverCall.i2cBus bus before c then some .i2c
  else none

/-! ## The flags -/

/-- The flags are up for what has been used. -/
structure FlagsInv (w : Peripherals χ) : Prop where
  initialized : ∀ pin, w.flags.initialized pin = happened (fun c => c.gpioPin = some pin) w.history
  adcReady : w.flags.adcReady = happened (fun c => c.adcPin ≠ none) w.history
  pinReady : ∀ pin, w.flags.pinReady pin = happened (fun c => c.adcPin = some pin) w.history
  tempReady : w.flags.tempReady = happened (fun c => c.isTemp = true) w.history
  busReady : ∀ bus, w.flags.busReady bus = happened (fun c => c.i2cBus = some bus) w.history

/-- What a call does to the flags. -/
structure FlagsAfter (c : DriverCall) (s s' : DriverFlags) : Prop where
  initialized : ∀ pin, s'.initialized pin = (decide (c.gpioPin = some pin) || s.initialized pin)
  adcReady : s'.adcReady = (decide (c.adcPin ≠ none) || s.adcReady)
  pinReady : ∀ pin, s'.pinReady pin = (decide (c.adcPin = some pin) || s.pinReady pin)
  tempReady : s'.tempReady = (decide (c.isTemp = true) || s.tempReady)
  busReady : ∀ bus, s'.busReady bus = (decide (c.i2cBus = some bus) || s.busReady bus)

/-- A flag that is set unless it is up. -/
theorem flag_update (flag : Nat → Bool) (k j : Nat) :
    Function.update flag k true j = (decide (some k = some j) || flag j) := by
  by_cases h : j = k
  · simp [h]
  · rw [Function.update_of_ne h]
    simp [Ne.symm h]

theorem flag_up {flag : Nat → Bool} {k : Nat} (h : flag k = true) (j : Nat) :
    flag j = (decide (some k = some j) || flag j) := by
  by_cases hj : k = j
  · rw [← hj, h, Bool.or_true]
  · simp [hj]

theorem gpioCtrl_flags {s : DriverFlags} {c : DriverCall} {pin : Nat}
    {calls : List SdkCall} {r : Driven} (h : gpioCtrl s pin calls = some r)
    (hg : c.gpioPin = if gpioCtrlIsValid pin then some pin else none) (ha : c.adcPin = none)
    (ht : c.isTemp = false) (hi : c.i2cBus = none) : FlagsAfter c s r.1 := by
  unfold gpioCtrl at h
  split at h
  · exact absurd h.symm (Option.some_ne_none _)
  · next hvalid =>
    obtain rfl := Option.some.inj h
    rw [if_pos (not_not.mp hvalid)] at hg
    rw [gpioEnsureInit]
    split
    · next hup => exact ⟨fun j => hg ▸ flag_up hup j, by simp [ha], by simp [ha],
        by simp [ht], by simp [hi]⟩
    · exact ⟨fun j => hg ▸ flag_update _ _ j, by simp [ha], by simp [ha],
        by simp [ht], by simp [hi]⟩

theorem i2cCtrl_flags {s : DriverFlags} {c : DriverCall} {bus len : Nat}
    {transfers : List SdkCall} {r : Driven} (h : i2cCtrl s bus len transfers = some r)
    (hi : c.i2cBus = if bus ≥ i2cBusMax ∨ len = 0 then none else some bus) (hg : c.gpioPin = none)
    (ha : c.adcPin = none) (ht : c.isTemp = false) : FlagsAfter c s r.1 := by
  unfold i2cCtrl at h
  split at h
  · exact absurd h.symm (Option.some_ne_none _)
  · next hgood =>
    obtain rfl := Option.some.inj h
    rw [if_neg hgood] at hi
    rw [i2cEnsureInit]
    split
    · next hup =>
      have hup := hup.resolve_left (not_or.mp hgood).1
      exact ⟨by simp [hg], by simp [ha], by simp [ha], by simp [ht], fun j => hi ▸ flag_up hup j⟩
    · exact ⟨by simp [hg], by simp [ha], by simp [ha], by simp [ht], fun j =>
        hi ▸ flag_update _ _ j⟩

theorem adcCtrlRead_flags {s : DriverFlags} {pin : Nat} {r : Driven}
    (h : adcCtrlRead s pin = some r) :
    FlagsAfter (.adcRead pin) s r.1 := by
  unfold adcCtrlRead at h
  split at h
  · exact absurd h.symm (Option.some_ne_none _)
  · next hvalid =>
    obtain rfl := Option.some.inj h
    have ha : (DriverCall.adcRead pin).adcPin = some pin := if_pos (not_not.mp hvalid)
    have hall : (ensureAdc s).1 = { s with adcReady := true } := by
      unfold ensureAdc
      split
      · next hup => rw [← hup]
      · rfl
    dsimp only
    rw [hall, ensureAdcPin]
    split
    · next hup => exact ⟨fun _ => rfl, by simp [ha], fun j => ha ▸ flag_up hup j, rfl, fun _ => rfl⟩
    · exact ⟨fun _ => rfl, by simp [ha], fun j => ha ▸ flag_update _ _ j, rfl, fun _ => rfl⟩

/-- A call that has no flags. -/
theorem flags_same {s : DriverFlags} {c : DriverCall} (hg : c.gpioPin = none) (ha : c.adcPin = none)
    (ht : c.isTemp = false) (hi : c.i2cBus = none) : FlagsAfter c s s :=
  ⟨by simp [hg], by simp [ha], by simp [ha], by simp [ht], by simp [hi]⟩

/-- **The flags of each driver**, behind a call that is not refused. -/
theorem run_flags {s : DriverFlags} {c : DriverCall} {r : Driven} (h : c.run s = some r) :
    FlagsAfter c s r.1 := by
  cases c with
  | gpioWrite pin level => exact gpioCtrl_flags h rfl rfl rfl rfl
  | gpioToggle pin => exact gpioCtrl_flags h rfl rfl rfl rfl
  | gpioRead pin => exact gpioCtrl_flags h rfl rfl rfl rfl
  | pwmSet sysHz pin freqHz dutyPct =>
    obtain ⟨set, -, rfl⟩ := Option.map_eq_some_iff.mp h
    exact flags_same rfl rfl rfl rfl
  | pwmOff pin =>
    change pwmCtrlOff s pin = some r at h
    unfold pwmCtrlOff at h
    split at h
    · exact absurd h.symm (Option.some_ne_none _)
    · obtain rfl := Option.some.inj h
      exact flags_same rfl rfl rfl rfl
  | adcRead pin => exact adcCtrlRead_flags h
  | tempRead =>
    obtain rfl := Option.some.inj h
    unfold tempSensorReadC
    dsimp only
    split
    · next hup =>
      exact ⟨fun _ => rfl, rfl, fun _ => rfl, by simp [hup, DriverCall.isTemp], fun _ => rfl⟩
    · exact ⟨fun _ => rfl, rfl, fun _ => rfl, rfl, fun _ => rfl⟩
  | i2cScan bus cap => exact i2cCtrl_flags h rfl rfl rfl rfl
  | i2cRead bus addr len => exact i2cCtrl_flags h rfl rfl rfl rfl
  | i2cWrite bus addr src => exact i2cCtrl_flags h rfl rfl rfl rfl
  | refreshPinIrq pin mask =>
    obtain rfl := Option.some.inj h
    exact flags_same rfl rfl rfl rfl

/-- A call that is refused is about nothing. -/
structure Refused (c : DriverCall) : Prop where
  gpio : c.gpioPin = none
  adc : c.adcPin = none
  temp : c.isTemp = false
  i2c : c.i2cBus = none
  set : c.pwmSetting = none
  off : c.pwmOffPin = none
  bound : c.boundPin = none

theorem run_refused {s : DriverFlags} {c : DriverCall} (h : c.run s = none) : Refused c := by
  have hgpio : ∀ {pin calls}, gpioCtrl s pin calls = none →
      (if gpioCtrlIsValid pin then some pin else none) = none := by
    intro pin calls hnone
    unfold gpioCtrl at hnone
    split at hnone
    · next hbad => exact if_neg hbad
    · exact absurd hnone (Option.some_ne_none _)
  have hi2c : ∀ {bus len transfers}, i2cCtrl s bus len transfers = none →
      (if bus ≥ i2cBusMax ∨ len = 0 then none else some bus) = none := by
    intro bus len transfers hnone
    unfold i2cCtrl at hnone
    split at hnone
    · next hbad => exact if_pos hbad
    · exact absurd hnone (Option.some_ne_none _)
  cases c with
  | gpioWrite pin level => exact ⟨hgpio h, rfl, rfl, rfl, rfl, rfl, rfl⟩
  | gpioToggle pin => exact ⟨hgpio h, rfl, rfl, rfl, rfl, rfl, rfl⟩
  | gpioRead pin => exact ⟨hgpio h, rfl, rfl, rfl, rfl, rfl, rfl⟩
  | pwmSet sysHz pin freqHz dutyPct =>
    exact ⟨rfl, rfl, rfl, rfl, Option.map_eq_none_iff.mp h, rfl, rfl⟩
  | pwmOff pin =>
    refine ⟨rfl, rfl, rfl, rfl, rfl, ?_, rfl⟩
    change pwmCtrlOff s pin = none at h
    unfold pwmCtrlOff at h
    split at h
    · next hbad => exact if_pos hbad
    · exact absurd h (Option.some_ne_none _)
  | adcRead pin =>
    refine ⟨rfl, ?_, rfl, rfl, rfl, rfl, rfl⟩
    change adcCtrlRead s pin = none at h
    unfold adcCtrlRead at h
    split at h
    · next hbad => exact if_neg hbad
    · exact absurd h (Option.some_ne_none _)
  | tempRead => exact absurd h (Option.some_ne_none _)
  | i2cScan bus cap => exact ⟨rfl, rfl, rfl, hi2c h, rfl, rfl, rfl⟩
  | i2cRead bus addr len => exact ⟨rfl, rfl, rfl, hi2c h, rfl, rfl, rfl⟩
  | i2cWrite bus addr src => exact ⟨rfl, rfl, rfl, hi2c h, rfl, rfl, rfl⟩
  | refreshPinIrq pin mask => exact absurd h (Option.some_ne_none _)

/-- **One call**: it is refused, and nothing happens, or the driver runs. -/
theorem next_cases (sdk : Sdk χ) (w : Peripherals χ) (c : DriverCall) :
    (Refused c ∧ w.next sdk c = { w with history := c :: w.history }) ∨
    ∃ r, c.run w.flags = some r ∧ FlagsAfter c w.flags r.1 ∧
      w.next sdk c = { flags := r.1, hw := sdk.after w.hw r.2, history := c :: w.history } := by
  unfold Peripherals.next
  cases hrun : c.run w.flags with
  | none => exact .inl ⟨run_refused hrun, rfl⟩
  | some r => exact .inr ⟨r, rfl, run_flags hrun, rfl⟩

theorem flagsInv_next {w : Peripherals χ} (h : FlagsInv w) (c : DriverCall) :
    FlagsInv (w.next sdk c) := by
  rcases next_cases sdk w c with ⟨hno, he⟩ | ⟨r, -, hr, he⟩
  · rw [he]
    refine ⟨fun pin => ?_, ?_, fun pin => ?_, ?_, fun bus => ?_⟩
    · exact flag_step (h.initialized pin) (by simp [hno.gpio])
    · exact flag_step h.adcReady (by simp [hno.adc])
    · exact flag_step (h.pinReady pin) (by simp [hno.adc])
    · exact flag_step h.tempReady (by simp [hno.temp])
    · exact flag_step (h.busReady bus) (by simp [hno.i2c])
  · rw [he]
    exact ⟨fun pin => flag_step (h.initialized pin) (hr.initialized pin),
      flag_step h.adcReady hr.adcReady,
      fun pin => flag_step (h.pinReady pin) (hr.pinReady pin), flag_step h.tempReady hr.tempReady,
      fun bus => flag_step (h.busReady bus) (hr.busReady bus)⟩

theorem flagsInv_reachable {w : Peripherals χ} (h : (peripherals sdk).Reachable w) :
    FlagsInv w := by
  refine LTS.ReachableWhen.inv (P := FlagsInv) h (fun w hi => ?_) fun w c w' hw _ hs => ?_
  · obtain rfl : w = _ := hi
    exact ⟨fun _ => rfl, rfl, fun _ => rfl, rfl, fun _ => rfl⟩
  · obtain rfl := Option.some.inj hs
    exact flagsInv_next hw c

/-! ## The pins -/

section Func

variable (hsdk : sdk.Connects) (s : DriverFlags) (h : χ) (pin j : Nat)

/-- A pin that is set up by one call, unless a flag is up. -/
theorem update_func (f : PinFunc) (old : Nat → PinFunc) {up : Bool} (hdown : up = false) :
    Function.update old pin f j = if pin = j ∧ up = false then f else old j := by
  by_cases hj : pin = j
  · rw [if_pos ⟨hj, hdown⟩, hj, Function.update_self]
  · rw [if_neg fun hc => hj hc.1, Function.update_of_ne (Ne.symm hj)]

include hsdk

theorem gpioEnsureInit_func : sdk.func (sdk.after h (gpioEnsureInit s pin).2) j =
    if pin = j ∧ s.initialized pin = false then .sio else sdk.func h j := by
  unfold gpioEnsureInit
  split
  · next hup => rw [if_neg fun hj => absurd (hj.2.symm.trans hup) Bool.false_ne_true]; rfl
  · next hdown =>
    show sdk.func (sdk.call (.gpioInit pin) h) j = _
    rw [hsdk.gpioInit]
    exact update_func pin j .sio _ (Bool.eq_false_of_not_eq_true hdown)

theorem ensureAdc_func : sdk.func (sdk.after h (ensureAdc s).2) = sdk.func h := by
  refine hsdk.after h fun c hc => ?_
  unfold ensureAdc at hc
  split at hc
  · exact absurd hc List.not_mem_nil
  · obtain rfl := List.mem_singleton.mp hc
    simp [SdkCall.blocks]

theorem ensureAdcPin_func : sdk.func (sdk.after h (ensureAdcPin s pin).2) j =
    if pin = j ∧ s.pinReady pin = false then .null else sdk.func h j := by
  unfold ensureAdcPin
  split
  · next hup => rw [if_neg fun hj => absurd (hj.2.symm.trans hup) Bool.false_ne_true]; rfl
  · next hdown =>
    show sdk.func (sdk.call (.adcGpioInit pin) h) j = _
    rw [hsdk.adcGpioInit]
    exact update_func pin j .null _ (Bool.eq_false_of_not_eq_true hdown)

theorem i2cEnsureInit_func {bus : Nat} (hbus : bus < i2cBusMax) :
    sdk.func (sdk.after h (i2cEnsureInit s bus).2) j =
      if (j = (busPins bus).1 ∨ j = (busPins bus).2) ∧ s.busReady bus = false then .i2c
      else sdk.func h j := by
  unfold i2cEnsureInit
  split
  · next hup =>
    have hup := hup.resolve_left (Nat.not_le.mpr hbus)
    rw [if_neg fun hj => absurd (hj.2.symm.trans hup) Bool.false_ne_true]
    rfl
  · next hdown =>
    have hdown := Bool.eq_false_of_not_eq_true (not_or.mp hdown).2
    -- the bus is set up, then its pins are connected, and then they are pulled up
    have hfunc :
        sdk.func (sdk.after h [.i2cInit bus (100 * 1000), .gpioSetFunction (busPins bus).1 .i2c,
          .gpioSetFunction (busPins bus).2 .i2c, .gpioPullUp (busPins bus).1,
          .gpioPullUp (busPins bus).2]) =
        Function.update (Function.update (sdk.func h) (busPins bus).1 .i2c)
          (busPins bus).2 .i2c := by
      simp only [Sdk.after, List.foldl_cons, List.foldl_nil]
      rw [hsdk.others _ _ (by simp [SdkCall.blocks]), hsdk.others _ _ (by simp [SdkCall.blocks]),
        hsdk.gpioSetFunction, hsdk.gpioSetFunction, hsdk.others _ _ (by simp [SdkCall.blocks])]
    refine (congrFun hfunc j).trans ?_
    by_cases hscl : j = (busPins bus).2
    · rw [if_pos ⟨.inr hscl, hdown⟩, hscl, Function.update_self]
    · rw [Function.update_of_ne hscl]
      by_cases hsda : j = (busPins bus).1
      · rw [if_pos ⟨.inl hsda, hdown⟩, hsda, Function.update_self]
      · rw [Function.update_of_ne hsda, if_neg fun hc => hc.1.elim hsda hscl]

end Func

section Takes

variable {c : DriverCall} {pin k : Nat} {before : List DriverCall}

/-- A call of `gpio_ctrl.c` takes its pin the first time. -/
theorem takes_gpio (hg : c.gpioPin = some k) (ha : c.adcPin = none) (hi : c.i2cBus = none)
    (hs : c.pwmSetting = none) (ho : c.pwmOffPin = none) (hb : c.boundPin = none) :
    takes pin before c =
      if k = pin ∧ happened (fun b => b.gpioPin = some pin) before = false then
      some .sio else none := by
  simp [takes, FirstUse, hg, ha, hi, hs, ho, hb]

/-- Setting up PWM takes its pin, and so do its end and a binding. -/
theorem takes_set {set : PwmSetting} (hg : c.gpioPin = none) (ha : c.adcPin = none)
    (hi : c.i2cBus = none) (hs : c.pwmSetting = some set) (ho : c.pwmOffPin = none)
    (hb : c.boundPin = none) :
    takes pin before c = if pin = set.pin.toNat then some .pwm else none := by
  simp [takes, FirstUse, hg, ha, hi, hs, ho, hb, @eq_comm _ pin]

theorem takes_sio (hg : c.gpioPin = none) (ha : c.adcPin = none) (hi : c.i2cBus = none)
    (hs : c.pwmSetting = none)
    (hk : c.pwmOffPin = some k ∧ c.boundPin = none ∨ c.pwmOffPin = none ∧ c.boundPin = some k) :
    takes pin before c = if pin = k then some .sio else none := by
  rcases hk with ⟨ho, hb⟩ | ⟨ho, hb⟩ <;>
    simp [takes, FirstUse, hg, ha, hi, hs, ho, hb, @eq_comm _ pin]

theorem takes_adc (hg : c.gpioPin = none) (ha : c.adcPin = some k) (hi : c.i2cBus = none)
    (hs : c.pwmSetting = none) (ho : c.pwmOffPin = none) (hb : c.boundPin = none) :
    takes pin before c =
      if k = pin ∧ happened (fun b => b.adcPin = some pin) before = false then
      some .null else none := by
  simp [takes, FirstUse, hg, ha, hi, hs, ho, hb]

/-- A bus takes both its pins the first time. -/
theorem takes_i2c {bus : Nat} (hbus : bus < i2cBusMax) (hg : c.gpioPin = none)
    (ha : c.adcPin = none) (hi : c.i2cBus = some bus) (hs : c.pwmSetting = none)
    (ho : c.pwmOffPin = none) (hb : c.boundPin = none) :
    takes pin before c = if (pin = (busPins bus).1 ∨ pin = (busPins bus).2) ∧
      happened (fun b => b.i2cBus = some bus) before = false then some .i2c else none := by
  have honly : (∃ b < i2cBusMax, (pin = (busPins b).1 ∨ pin = (busPins b).2) ∧
        FirstUse DriverCall.i2cBus b before c) ↔
      (pin = (busPins bus).1 ∨ pin = (busPins bus).2) ∧
        happened (fun b => b.i2cBus = some bus) before = false := by
    constructor
    · rintro ⟨b, -, hpin, hb, hfirst⟩
      obtain rfl := Option.some.inj (hi.symm.trans hb)
      exact ⟨hpin, hfirst⟩
    · exact fun hc => ⟨bus, hbus, hc.1, hi, hc.2⟩
  have hrest : takes pin before c =
      if ∃ b < i2cBusMax, (pin = (busPins b).1 ∨ pin = (busPins b).2) ∧
        FirstUse DriverCall.i2cBus b before c then some .i2c else none := by
    simp [takes, FirstUse, hg, ha, hs, ho, hb]
  rw [hrest]
  exact if_congr honly rfl rfl

/-- A call that is about no pin takes none. -/
theorem takes_none (hg : c.gpioPin = none) (ha : c.adcPin = none) (hi : c.i2cBus = none)
    (hs : c.pwmSetting = none) (ho : c.pwmOffPin = none) (hb : c.boundPin = none) :
    takes pin before c = none := by
  simp [takes, FirstUse, hg, ha, hi, hs, ho, hb]

end Takes

section Step

variable {w : Peripherals χ} {c : DriverCall} {r : Driven} {pin k bus len : Nat}
  {calls : List SdkCall}

theorem gpioCtrl_func (hsdk : sdk.Connects) (hw : FlagsInv w)
    (hrun : gpioCtrl w.flags k calls = some r) (hg : c.gpioPin = if gpioCtrlIsValid k then some k
      else none) (ha : c.adcPin = none) (hi : c.i2cBus = none)
    (hs : c.pwmSetting = none) (ho : c.pwmOffPin = none) (hb : c.boundPin = none)
    (hcalls : ∀ c ∈ calls, .func ∉ c.blocks) :
    sdk.func (sdk.after w.hw r.2) pin = (takes pin w.history c).getD (sdk.func w.hw pin) := by
  unfold gpioCtrl at hrun
  split at hrun
  · exact absurd hrun.symm (Option.some_ne_none _)
  · next hvalid =>
    obtain rfl := Option.some.inj hrun
    rw [if_pos (not_not.mp hvalid)] at hg
    rw [Sdk.after_append, hsdk.after _ hcalls, gpioEnsureInit_func hsdk,
      takes_gpio hg ha hi hs ho hb]
    by_cases hk : k = pin
    · rw [hk, hw.initialized pin]
      split <;> rfl
    · rw [if_neg fun hc => hk hc.1, if_neg fun hc => hk hc.1]
      rfl

theorem i2cCtrl_func (hsdk : sdk.Connects) (hw : FlagsInv w)
    (hrun : i2cCtrl w.flags bus len calls = some r) (hg : c.gpioPin = none) (ha : c.adcPin = none)
    (hi : c.i2cBus = if bus ≥ i2cBusMax ∨ len = 0 then none else some bus)
    (hs : c.pwmSetting = none) (ho : c.pwmOffPin = none) (hb : c.boundPin = none)
    (hcalls : ∀ c ∈ calls, .func ∉ c.blocks) :
    sdk.func (sdk.after w.hw r.2) pin = (takes pin w.history c).getD (sdk.func w.hw pin) := by
  unfold i2cCtrl at hrun
  split at hrun
  · exact absurd hrun.symm (Option.some_ne_none _)
  · next hgood =>
    obtain rfl := Option.some.inj hrun
    rw [if_neg hgood] at hi
    have hbus : bus < i2cBusMax := Nat.not_le.mp (not_or.mp hgood).1
    rw [Sdk.after_append, hsdk.after _ hcalls, i2cEnsureInit_func hsdk _ _ _ hbus,
      takes_i2c hbus hg ha hi hs ho hb, hw.busReady bus]
    split <;> rfl

/-- The transfers of a scan connect nothing. -/
theorem scan_blocks (bus : Nat) (addrs : List Nat) :
    ∀ c ∈ addrs.map (fun a => SdkCall.i2cReadBlocking bus a 1), c.blocks = [] := by
  intro c hc
  obtain ⟨a, -, rfl⟩ := List.mem_map.mp hc
  rfl

/-- What takes the pin `k` every time. -/
theorem update_taken {old : Nat → PinFunc} {f : PinFunc} {taken : Option PinFunc}
    (h : taken = if pin = k then some f else none) :
    Function.update old k f pin = taken.getD (old pin) := by
  rw [h, Function.update_apply]
  split <;> rfl

theorem pwmSet_func (hsdk : sdk.Connects) {sysHz pin' freqHz : UInt32} {dutyPct : UInt8}
    {set : PwmSetting}
    (hset : (DriverCall.pwmSet sysHz pin' freqHz dutyPct).pwmSetting = some set) :
    sdk.func (sdk.after w.hw [.gpioSetFunction set.pin.toNat .pwm,
        .pwmInit set.pin.toNat set.divInt set.divFrac set.wrap true,
        .pwmSetGpioLevel set.pin.toNat set.level]) pin =
      (takes pin w.history (.pwmSet sysHz pin' freqHz dutyPct)).getD (sdk.func w.hw pin) := by
  rw [← update_taken (takes_set rfl rfl rfl hset rfl rfl)]
  refine congrFun ?_ pin
  simp only [Sdk.after, List.foldl_cons, List.foldl_nil]
  rw [hsdk.others _ _ (by simp [SdkCall.blocks]), hsdk.others _ _ (by simp [SdkCall.blocks]),
    hsdk.gpioSetFunction]

theorem pwmOff_func (hsdk : sdk.Connects) (hrun : pwmCtrlOff w.flags k = some r) :
    sdk.func (sdk.after w.hw r.2) pin =
      (takes pin w.history (.pwmOff k)).getD (sdk.func w.hw pin) := by
  unfold pwmCtrlOff at hrun
  split at hrun
  · exact absurd hrun.symm (Option.some_ne_none _)
  · next hgood =>
    obtain rfl := Option.some.inj hrun
    have hoff : (DriverCall.pwmOff k).pwmOffPin = some k := if_neg hgood
    rw [← update_taken (takes_sio rfl rfl rfl rfl (.inl ⟨hoff, rfl⟩))]
    refine congrFun ?_ pin
    simp only [Sdk.after, List.foldl_cons, List.foldl_nil]
    rw [hsdk.others _ _ (by simp [SdkCall.blocks]), hsdk.gpioSetFunction,
      hsdk.others _ _ (by simp [SdkCall.blocks])]

theorem adcRead_func (hsdk : sdk.Connects) (hw : FlagsInv w)
    (hrun : adcCtrlRead w.flags k = some r) :
    sdk.func (sdk.after w.hw r.2) pin =
      (takes pin w.history (.adcRead k)).getD (sdk.func w.hw pin) := by
  unfold adcCtrlRead at hrun
  split at hrun
  · exact absurd hrun.symm (Option.some_ne_none _)
  · next hvalid =>
    obtain rfl := Option.some.inj hrun
    have ha : (DriverCall.adcRead k).adcPin = some k := if_pos (not_not.mp hvalid)
    have hready : (ensureAdc w.flags).1.pinReady = w.flags.pinReady := by
      unfold ensureAdc
      split <;> rfl
    rw [takes_adc rfl ha rfl rfl rfl rfl, Sdk.after_append, Sdk.after_append,
      hsdk.after _ (by simp [SdkCall.blocks]), ensureAdcPin_func hsdk,
      ensureAdc_func hsdk, hready]
    by_cases hk : k = pin
    · rw [hk, hw.pinReady pin]
      split <;> rfl
    · rw [if_neg fun hc => hk hc.1, if_neg fun hc => hk hc.1]
      rfl

/-- A binding takes its pin; without one the pin is left alone. -/
theorem refreshPinIrq_func (hsdk : sdk.Connects) (mask : Finset Edge) :
    sdk.func (sdk.after w.hw (refreshPinIrqCalls k mask)) pin =
      (takes pin w.history (.refreshPinIrq k mask)).getD (sdk.func w.hw pin) := by
  unfold refreshPinIrqCalls
  split
  · next hmask =>
    have hbound : (DriverCall.refreshPinIrq k mask).boundPin = some k := if_pos hmask
    rw [← update_taken (takes_sio rfl rfl rfl rfl (.inr ⟨rfl, hbound⟩))]
    refine congrFun ?_ pin
    simp only [Sdk.after, List.foldl_cons, List.foldl_nil]
    rw [hsdk.others _ _ (by simp [SdkCall.blocks]), hsdk.others _ _ (by simp [SdkCall.blocks]),
      hsdk.others _ _ (by simp [SdkCall.blocks]), hsdk.gpioInit]
  · next hmask =>
    have hfree : (DriverCall.refreshPinIrq k mask).boundPin = none := if_neg hmask
    rw [takes_none rfl rfl rfl rfl rfl hfree, hsdk.after _ (by simp [SdkCall.blocks])]
    rfl

/-- **What one call connects.** -/
theorem next_func (hsdk : sdk.Connects) (hw : FlagsInv w) (c : DriverCall) (pin : Nat) :
    sdk.func (w.next sdk c).hw pin = (takes pin w.history c).getD (sdk.func w.hw pin) := by
  rcases next_cases sdk w c with ⟨hno, he⟩ | ⟨r, hrun, -, he⟩
  · rw [he, takes_none hno.gpio hno.adc hno.i2c hno.set hno.off hno.bound]
    rfl
  rw [he]
  show sdk.func (sdk.after w.hw r.2) pin = _
  cases c with
  | gpioWrite k level =>
    exact gpioCtrl_func hsdk hw hrun rfl rfl rfl rfl rfl rfl (by simp [SdkCall.blocks])
  | gpioToggle k =>
    exact gpioCtrl_func hsdk hw hrun rfl rfl rfl rfl rfl rfl (by simp [SdkCall.blocks])
  | gpioRead k =>
    exact gpioCtrl_func hsdk hw hrun rfl rfl rfl rfl rfl rfl (by simp [SdkCall.blocks])
  | pwmSet sysHz k freqHz dutyPct =>
    obtain ⟨set, hset, rfl⟩ := Option.map_eq_some_iff.mp hrun
    exact pwmSet_func hsdk hset
  | pwmOff k => exact pwmOff_func hsdk hrun
  | adcRead k => exact adcRead_func hsdk hw hrun
  | tempRead =>
    obtain rfl := Option.some.inj hrun
    rw [takes_none rfl rfl rfl rfl rfl rfl, hsdk.after]
    · rfl
    · unfold tempSensorReadC
      dsimp only
      split <;> simp [SdkCall.blocks]
  | i2cScan bus cap =>
    refine i2cCtrl_func hsdk hw hrun rfl rfl rfl rfl rfl rfl fun c hc => ?_
    rw [scan_blocks bus _ c hc]
    exact List.not_mem_nil
  | i2cRead bus addr len =>
    exact i2cCtrl_func hsdk hw hrun rfl rfl rfl rfl rfl rfl (by simp [SdkCall.blocks])
  | i2cWrite bus addr src =>
    exact i2cCtrl_func hsdk hw hrun rfl rfl rfl rfl rfl rfl (by simp [SdkCall.blocks])
  | refreshPinIrq k mask =>
    obtain rfl := Option.some.inj hrun
    exact refreshPinIrq_func hsdk mask

end Step

theorem next_history (sdk : Sdk χ) (w : Peripherals χ) (c : DriverCall) :
    (w.next sdk c).history = c :: w.history := by
  rcases next_cases sdk w c with ⟨-, he⟩ | ⟨r, -, -, he⟩ <;> rw [he]

/-- What each call writes as it is said is the last word in every run. -/
theorem records_reachable {β : Type} (word : List DriverCall → DriverCall → Option β)
    (held : Peripherals χ → β)
    (hnext : ∀ w c, FlagsInv w → held (w.next sdk c) = (word w.history c).getD (held w))
    {w : Peripherals χ} (h : (peripherals sdk).Reachable w) :
    Records word w.history (held (.start sdk)) (held w) := by
  refine LTS.ReachableWhen.inv (P := fun w => (peripherals sdk).Reachable w ∧
    Records word w.history (held (.start sdk)) (held w)) h
    (fun w hi => ?_) (fun w c w' hw _ hs => ?_) |>.2
  · obtain rfl : w = _ := hi
    exact ⟨.init rfl, records_nil⟩
  · refine ⟨hw.1.tail hs, ?_⟩
    obtain rfl := Option.some.inj hs
    rw [next_history]
    exact hw.2.step (hnext w c (flagsInv_reachable hw.1))

/-- **Every pin is connected to what the last call that took it made of it.** -/
theorem func_reachable (hsdk : sdk.Connects) {w : Peripherals χ} (h : (peripherals sdk).Reachable w)
    (pin : Nat) :
    Records (takes pin) w.history .null (sdk.func w.hw pin) := by
  have hheld :=
    records_reachable _ (fun w => sdk.func w.hw pin) (fun _ c hw => next_func hsdk hw c pin) h
  rwa [show sdk.func (Peripherals.start sdk).hw pin = .null from hsdk.reset pin] at hheld

/-! ## The same as the pads of `gpio` -/

/-- What the command `gpio` sees of it. -/
def Peripherals.pads (sdk : Sdk χ) (w : Peripherals χ) : Cli.Pads :=
  ⟨w.flags.initialized, sdk.isOut w.hw, sdk.out w.hw⟩

theorem gpioEnsureInit_pads (hsdk : sdk.Steers) (w : Peripherals χ) (pin : Nat) :
    (⟨(gpioEnsureInit w.flags pin).1.initialized,
      sdk.isOut (sdk.after w.hw (gpioEnsureInit w.flags pin).2),
      sdk.out (sdk.after w.hw (gpioEnsureInit w.flags pin).2)⟩ : Cli.Pads) =
        Cli.ensureInit pin (w.pads sdk) := by
  unfold gpioEnsureInit Cli.ensureInit
  show _ = if w.flags.initialized pin then w.pads sdk else _
  split
  · rfl
  · show (⟨_, sdk.isOut (sdk.call (.gpioInit pin) w.hw),
      sdk.out (sdk.call (.gpioInit pin) w.hw)⟩ : Cli.Pads) = _
    rw [hsdk.gpioInit_isOut, hsdk.gpioInit_out]
    rfl

/-- **`gpio_ctrl.c` does the same** to its flags and to the SIO block. -/
theorem gpio_pads (hsdk : sdk.Steers) (w : Peripherals χ) (pin : Nat) (level : Bool) :
    (w.next sdk (.gpioWrite pin level)).pads sdk =
      (Cli.gpioCtrlWrite pin level (w.pads sdk)).getD (w.pads sdk) ∧
    (w.next sdk (.gpioToggle pin)).pads sdk =
      (Cli.gpioCtrlToggle pin (w.pads sdk)).getD (w.pads sdk) ∧
    (w.next sdk (.gpioRead pin)).pads sdk =
      ((Cli.gpioCtrlRead pin level (w.pads sdk)).map Prod.fst).getD (w.pads sdk) := by
  unfold Peripherals.next DriverCall.run gpioCtrl Cli.gpioCtrlWrite Cli.gpioCtrlToggle
    Cli.gpioCtrlRead
  dsimp only
  rw [← gpioEnsureInit_pads hsdk]
  by_cases hbad : ¬ gpioCtrlIsValid pin = true
  · simp only [if_pos hbad]
    exact ⟨rfl, rfl, rfl⟩
  · have hget : ∀ h, sdk.isOut (sdk.call (.gpioGet pin) h) = sdk.isOut h ∧
        sdk.out (sdk.call (.gpioGet pin) h) = sdk.out h :=
      fun h => hsdk.others (.gpioGet pin) h (by simp [SdkCall.blocks])
    simp only [if_neg hbad, Peripherals.pads, Sdk.after_append]
    simp only [Sdk.after, List.foldl_cons, List.foldl_nil, hsdk.put_isOut, hsdk.put_out,
      hsdk.setDir_isOut, hsdk.setDir_out, hsdk.xor_isOut, hsdk.xor_out, (hget _).1, (hget _).2]
    exact ⟨rfl, rfl, rfl⟩

/-- What the SIO block puts on a pin, if it is connected to it. -/
def Sdk.drives (sdk : Sdk χ) (h : χ) (pin : Nat) : Option Bool :=
  if sdk.func h pin = .sio ∧ sdk.isOut h pin = true then some (sdk.out h pin) else none

/-- Behind `gpio_ctrl_write` the SIO block is set, whether the pin is connected to it or not. -/
theorem gpioWrite_sio (hsdk : sdk.Steers) (w : Peripherals χ) {pin : Nat}
    (hvalid : gpioCtrlIsValid pin = true) (level : Bool) :
    sdk.isOut (w.next sdk (.gpioWrite pin level)).hw pin = true ∧
      sdk.out (w.next sdk (.gpioWrite pin level)).hw pin = level := by
  have hrun : (DriverCall.gpioWrite pin level).run w.flags = some ((gpioEnsureInit w.flags pin).1,
      (gpioEnsureInit w.flags pin).2 ++ [.gpioSetDir pin true, .gpioPut pin level]) :=
        if_neg (not_not_intro hvalid)
  unfold Peripherals.next
  rw [hrun]
  dsimp only
  rw [Sdk.after_append]
  simp only [Sdk.after, List.foldl_cons, List.foldl_nil, hsdk.put_isOut, hsdk.put_out,
    hsdk.setDir_isOut, Function.update_self, and_self]

/-- A driver that sets a pin up once finds it connected the first time, and later if nobody else has
taken it since. -/
theorem func_kept (hsdk : sdk.Connects) {w : Peripherals χ} (h : (peripherals sdk).Reachable w)
    {use : DriverCall → Option Nat} {k pin : Nat} {c : DriverCall} {f : PinFunc} (hf : f ≠ .null)
    (htakes : takes pin w.history c =
      if happened (fun b => use b = some k) w.history = false then some f else none) :
    sdk.func (w.next sdk c).hw pin = f ↔
      (∀ b ∈ w.history, use b ≠ some k) ∨ lastWord (takes pin) w.history = some f := by
  have hfunc := next_func hsdk (flagsInv_reachable h) c pin
  have hheld : sdk.func w.hw pin = (lastWord (takes pin) w.history).getD .null :=
    func_reachable hsdk h pin
  rw [hfunc, htakes]
  cases hup : happened (fun b => use b = some k) w.history with
  | false =>
    rw [if_pos rfl]
    refine iff_of_true rfl (.inl fun b hb hpin => ?_)
    exact absurd (hup.symm.trans (happened_iff.mpr ⟨b, hb, hpin⟩)) Bool.false_ne_true
  | true =>
    obtain ⟨b, hb, hpin⟩ := happened_iff.mp hup
    rw [if_neg Bool.false_ne_true.symm, Option.getD_none, hheld]
    constructor
    · intro hheld
      right
      cases hword : lastWord (takes pin) w.history with
      | none => exact absurd (hheld.symm.trans (by rw [hword, Option.getD_none])) hf
      | some g => rw [hword, Option.getD_some] at hheld; exact congrArg some hheld
    · rintro (hfirst | hword)
      · exact absurd hpin (hfirst b hb)
      · rw [hword, Option.getD_some]

/-- **A pin is driven** by `gpio_ctrl_write` if this is the first call for it, or if the last one to
take it has left it to GPIO. -/
theorem gpioWrite_drives (hsdk : sdk.Connects) (hsio : sdk.Steers) {w : Peripherals χ}
    (h : (peripherals sdk).Reachable w) {pin : Nat} (hvalid : gpioCtrlIsValid pin = true)
    (level : Bool) :
    sdk.drives (w.next sdk (.gpioWrite pin level)).hw pin = some level ↔
      (∀ c ∈ w.history, c.gpioPin ≠ some pin) ∨ lastWord (takes pin) w.history = some .sio := by
  have hg : (DriverCall.gpioWrite pin level).gpioPin = some pin := if_pos hvalid
  obtain ⟨hout, hlevel⟩ := gpioWrite_sio hsio w hvalid level
  have hdrives : sdk.drives (w.next sdk (.gpioWrite pin level)).hw pin = some level ↔
      sdk.func (w.next sdk (.gpioWrite pin level)).hw pin = .sio := by
    unfold Sdk.drives
    rw [hout, hlevel]
    split
    · next hyes => exact iff_of_true rfl hyes.1
    · next hno => exact iff_of_false (Option.some_ne_none _).symm fun hf => hno ⟨hf, rfl⟩
  rw [hdrives]
  refine func_kept hsdk h (by decide) ?_
  rw [takes_gpio hg rfl rfl rfl rfl rfl]
  exact if_congr (and_iff_right rfl) rfl rfl

/-- **A bus reaches its pins** if this is its first transfer, or if nobody has taken them since. -/
theorem i2c_connected (hsdk : sdk.Connects) {w : Peripherals χ} (h : (peripherals sdk).Reachable w)
    {c : DriverCall} {bus pin : Nat} (hc : c.i2cBus = some bus)
    (hpin : pin = (busPins bus).1 ∨ pin = (busPins bus).2) :
    sdk.func (w.next sdk c).hw pin = .i2c ↔
      (∀ b ∈ w.history, b.i2cBus ≠ some bus) ∨ lastWord (takes pin) w.history = some .i2c := by
  have hbus : ∀ {b len : Nat}, (if b ≥ i2cBusMax ∨ len = 0 then none else some b) = some bus →
      bus < i2cBusMax := by
    intro b len hb
    split at hb
    · exact absurd hb.symm (Option.some_ne_none _)
    · next hgood => exact Option.some.inj hb ▸ Nat.not_le.mp (not_or.mp hgood).1
  obtain ⟨hbus, hg, ha, hs, ho, hb⟩ : bus < i2cBusMax ∧ c.gpioPin = none ∧ c.adcPin = none ∧
    c.pwmSetting = none ∧
      c.pwmOffPin = none ∧ c.boundPin = none := by
    cases c with
    | i2cScan b cap => exact ⟨hbus hc, rfl, rfl, rfl, rfl, rfl⟩
    | i2cRead b addr len => exact ⟨hbus hc, rfl, rfl, rfl, rfl, rfl⟩
    | i2cWrite b addr src => exact ⟨hbus hc, rfl, rfl, rfl, rfl, rfl⟩
    | _ => exact absurd hc.symm (Option.some_ne_none bus)
  refine func_kept hsdk h (by decide) ?_
  rw [takes_i2c hbus hg ha hc hs ho hb]
  exact if_congr (and_iff_right hpin) rfl rfl

/-- **The drivers take the pins from each other.** In every run a pin is connected to what the last
call that took it made of it: PWM, its end and a binding take it each time, and GPIO, ADC and I2C
only the first time. So a `gpio_ctrl_write` that returns true drives the pin, and a bus reaches its
pins, exactly if it is the first or nobody else has had the last word since; PWM always gets its
pin. -/
theorem pins_shared (hsdk : sdk.Connects) (hsio : sdk.Steers) {w : Peripherals χ}
    (h : (peripherals sdk).Reachable w) :
    (∀ pin, sdk.func w.hw pin = (lastWord (takes pin) w.history).getD .null) ∧
    (∀ pin level, gpioCtrlIsValid pin = true →
      (sdk.drives (w.next sdk (.gpioWrite pin level)).hw pin = some level ↔
        (∀ c ∈ w.history, c.gpioPin ≠ some pin) ∨ lastWord (takes pin) w.history = some .sio)) ∧
    (∀ c bus pin, c.i2cBus = some bus → pin = (busPins bus).1 ∨ pin = (busPins bus).2 →
      (sdk.func (w.next sdk c).hw pin = .i2c ↔
        (∀ b ∈ w.history, b.i2cBus ≠ some bus) ∨ lastWord (takes pin) w.history = some .i2c)) ∧
    ∀ c set, c.pwmSetting = some set → sdk.func (w.next sdk c).hw set.pin.toNat = .pwm := by
  refine ⟨func_reachable hsdk h, fun pin level hvalid => gpioWrite_drives hsdk hsio h hvalid level,
    fun c bus pin hc hpin => i2c_connected hsdk h hc hpin, fun c set hc => ?_⟩
  cases c with
  | pwmSet sysHz pin freqHz dutyPct =>
    rw [next_func hsdk (flagsInv_reachable h)]
    simp [takes, FirstUse, DriverCall.gpioPin, DriverCall.pwmOffPin, DriverCall.boundPin, hc]
  | _ => exact absurd hc.symm (Option.some_ne_none set)

theorem reachable_calls {w : Peripherals χ} (h : (peripherals sdk).Reachable w)
    (calls : List DriverCall) :
    (peripherals sdk).Reachable (calls.foldl (Peripherals.next sdk) w) := by
  induction calls generalizing w with
  | nil => exact h
  | cons c calls ih => exact ih (LTS.Reachable.tail h rfl)

/-- `gpio 4 high`, and then `pwm 4 1000 50`. -/
def pwmOverGpio : Peripherals Hardware :=
  [.gpioWrite 4 true, .pwmSet 125000000 4 1000 50].foldl (Peripherals.next rp2040) (.start rp2040)

/-- `pwm 4 off`. -/
def pwmOffAgain : Peripherals Hardware := pwmOverGpio.next rp2040 (.pwmOff 4)

/-- `i2c 0 scan`. -/
def thenScanned : Peripherals Hardware := pwmOffAgain.next rp2040 (.i2cScan 0 128)

/-- Now `gpio 4 high` drives nothing, until `pwm 4 off`; and then not any more when bus 0 has been
scanned. -/
theorem pwmOverGpio_shared :
    rp2040.drives (pwmOverGpio.next rp2040 (.gpioWrite 4 true)).hw 4 ≠ some true ∧
    rp2040.drives (pwmOffAgain.next rp2040 (.gpioWrite 4 true)).hw 4 = some true ∧
    rp2040.func thenScanned.hw 4 = .i2c ∧
    rp2040.drives (thenScanned.next rp2040 (.gpioWrite 4 true)).hw 4 ≠ some true := by
  have h : (peripherals rp2040).Reachable pwmOverGpio := reachable_calls (.init rfl) _
  have hoff : (peripherals rp2040).Reachable pwmOffAgain := LTS.Reachable.tail h rfl
  have hscan : (peripherals rp2040).Reachable thenScanned := LTS.Reachable.tail hoff rfl
  refine ⟨fun hd => ?_, ?_, ?_, fun hd => ?_⟩
  · rcases ((pins_shared rp2040_connects rp2040_steers h).2.1 4 true rfl).mp hd with hno | hword
    · exact absurd hno (by decide +kernel)
    · exact absurd hword (by decide +kernel)
  · exact ((pins_shared rp2040_connects rp2040_steers hoff).2.1 4 true rfl).mpr
      (.inr (by decide +kernel))
  · exact ((pins_shared rp2040_connects rp2040_steers hoff).2.2.1 (.i2cScan 0 128) 0 4
      rfl (.inl rfl)).mpr
      (.inl (by decide +kernel))
  · rcases ((pins_shared rp2040_connects rp2040_steers hscan).2.1 4 true rfl).mp hd with hno | hword
    · exact absurd hno (by decide +kernel)
    · exact absurd hword (by decide +kernel)

end PicoBLE.Firmware
