import PicoBLE.Cli.CmdGpio
import PicoBLE.Drivers.PwmCtrl
import PicoBLE.Firmware.Sdk
import PicoBLE.Lib.LastWord

/-!
# The drivers

`gpio_ctrl.c`, `pwm_ctrl.c`, `adc_ctrl.c`, `temp_sensor.c` and `i2c_ctrl.c`, and
`refresh_pin_irq` of `bindings.c`, all set up pins, and each has flags of its own
for what it has set up. A driver is what it calls of the SDK.
-/

namespace PicoBLE.Firmware

open PicoBLE.Cli (gpioCtrlIsValid)
open PicoBLE.Drivers
open PicoBLE.System (Edge)
open LastWord

/-! ## The drivers -/

/-- The flags of the drivers. -/
structure DriverFlags where
  /-- `g_initialized` of `gpio_ctrl.c`. -/
  initialized : Nat → Bool
  /-- `g_adc_ready` and `g_pin_ready_mask`. -/
  adcReady : Bool
  pinReady : Nat → Bool
  /-- `g_ready` of `temp_sensor.c`. -/
  tempReady : Bool
  /-- `g_ready` of `i2c_ctrl.c`. -/
  busReady : Nat → Bool

def DriverFlags.zero : DriverFlags := ⟨fun _ => false, false, fun _ => false, false, fun _ => false⟩

/-- What a driver leaves in the flags, and what it calls. -/
abbrev Driven := DriverFlags × List SdkCall

section Drivers

variable (s : DriverFlags)

/-- `ensure_init`, of `gpio_ctrl.c`. -/
def gpioEnsureInit (pin : Nat) : Driven :=
  if s.initialized pin then (s, [])
  else ({ s with initialized := Function.update s.initialized pin true }, [.gpioInit pin])

/-- `gpio_ctrl_write`, `gpio_ctrl_toggle` and `gpio_ctrl_read`: the pin is set up, and then the rest
is called. -/
def gpioCtrl (pin : Nat) (calls : List SdkCall) : Option Driven :=
  if ¬ gpioCtrlIsValid pin then none
  else some ((gpioEnsureInit s pin).1, (gpioEnsureInit s pin).2 ++ calls)

/-- `pwm_ctrl_set`. -/
def pwmCtrlSetCalls (sysHz pin freqHz : UInt32) (dutyPct : UInt8) : Option Driven :=
  (pwmCtrlSet sysHz pin freqHz dutyPct).map fun set =>
    (s, [.gpioSetFunction set.pin.toNat .pwm,
      .pwmInit set.pin.toNat set.divInt set.divFrac set.wrap true,
      .pwmSetGpioLevel set.pin.toNat set.level])

/-- `pwm_ctrl_off`. -/
def pwmCtrlOff (pin : Nat) : Option Driven :=
  if pin > 29 then none
  else some (s, [.pwmSetEnabled pin false, .gpioSetFunction pin .sio, .gpioSetDir pin false])

/-- `ADC_CTRL_MIN_PIN` and `ADC_CTRL_MAX_PIN`. -/
def adcCtrlMinPin : Nat := 26

def adcCtrlMaxPin : Nat := 29

/-- `adc_ctrl_is_valid`. -/
def adcCtrlIsValid (pin : Nat) : Bool := adcCtrlMinPin ≤ pin ∧ pin ≤ adcCtrlMaxPin

/-- `ensure_adc`. -/
def ensureAdc : Driven := if s.adcReady then (s, []) else ({ s with adcReady := true }, [.adcInit])

/-- The pin, the first time. -/
def ensureAdcPin (pin : Nat) : Driven :=
  if s.pinReady pin then (s, [])
  else ({ s with pinReady := Function.update s.pinReady pin true }, [.adcGpioInit pin])

/-- `adc_ctrl_read`. -/
def adcCtrlRead (pin : Nat) : Option Driven :=
  if ¬ adcCtrlIsValid pin then none
  else
    let block := ensureAdc s
    let input := ensureAdcPin block.1 pin
    some (input.1, block.2 ++ input.2 ++ [.adcSelectInput (pin - adcCtrlMinPin), .adcRead])

/-- What `adc_ctrl_read` makes of the reading. -/
def adcMv (raw : UInt16) : UInt32 := raw.toUInt32 * 3300 / 4095

/-- `temp_sensor_read_c`, up to its reading. -/
def tempSensorReadC : Driven :=
  let block : Driven :=
    if s.tempReady then (s, [])
    else ({ s with tempReady := true }, [.adcInit, .adcSetTempSensorEnabled true])
  (block.1, block.2 ++ [.adcSelectInput 4, .adcRead])

/-- `I2C_BUS_MAX`. -/
def i2cBusMax : Nat := 2

/-- `sda` and `scl`. -/
def busPins (bus : Nat) : Nat × Nat := if bus = 0 then (4, 5) else (6, 7)

/-- `ensure_init`, of `i2c_ctrl.c`. -/
def i2cEnsureInit (bus : Nat) : Driven :=
  if bus ≥ i2cBusMax ∨ s.busReady bus then (s, [])
  else
    let (sda, scl) := busPins bus
    ({ s with busReady := Function.update s.busReady bus true },
      [.i2cInit bus (100 * 1000), .gpioSetFunction sda .i2c, .gpioSetFunction scl .i2c,
        .gpioPullUp sda, .gpioPullUp scl])

/-- `i2c_ctrl_scan`, `i2c_ctrl_read` and `i2c_ctrl_write`, with arguments of which none is null: the
bus is set up, and then the transfers are made. -/
def i2cCtrl (bus len : Nat) (transfers : List SdkCall) : Option Driven :=
  if bus ≥ i2cBusMax ∨ len = 0 then none
  else some ((i2cEnsureInit s bus).1, (i2cEnsureInit s bus).2 ++ transfers)

/-- What `refresh_pin_irq` calls for the mask that it finds. -/
def refreshPinIrqCalls (pin : Nat) (mask : Finset Edge) : List SdkCall :=
  if mask ≠ ∅ then [.gpioInit pin, .gpioSetDir pin false, .gpioPullUp pin,
    .gpioSetIrqEnabled pin mask true]
  else [.gpioSetIrqEnabled pin {.rise, .fall} false]

end Drivers

/-! ## The calls -/

/-- A call of a driver. -/
inductive DriverCall where
  | gpioWrite (pin : Nat) (level : Bool)
  | gpioToggle (pin : Nat)
  | gpioRead (pin : Nat)
  | pwmSet (sysHz pin freqHz : UInt32) (dutyPct : UInt8)
  | pwmOff (pin : Nat)
  | adcRead (pin : Nat)
  | tempRead
  | i2cScan (bus cap : Nat)
  | i2cRead (bus addr len : Nat)
  | i2cWrite (bus addr : Nat) (src : List UInt8)
  | refreshPinIrq (pin : Nat) (mask : Finset Edge)

/-- The driver, or `none` when it refuses. -/
def DriverCall.run (s : DriverFlags) : DriverCall → Option Driven
  | gpioWrite pin level => gpioCtrl s pin [.gpioSetDir pin true, .gpioPut pin level]
  | gpioToggle pin => gpioCtrl s pin [.gpioSetDir pin true, .gpioXor pin]
  | gpioRead pin => gpioCtrl s pin [.gpioSetDir pin false, .gpioGet pin]
  | pwmSet sysHz pin freqHz dutyPct => pwmCtrlSetCalls s sysHz pin freqHz dutyPct
  | pwmOff pin => pwmCtrlOff s pin
  | adcRead pin => adcCtrlRead s pin
  | tempRead => some (tempSensorReadC s)
  | i2cScan bus cap =>
    i2cCtrl s bus cap ((List.range' 0x08 0x70).map fun a => .i2cReadBlocking bus a 1)
  | i2cRead bus addr len => i2cCtrl s bus len [.i2cReadBlocking bus addr len]
  | i2cWrite bus addr src => i2cCtrl s bus src.length [.i2cWriteBlocking bus addr src]
  | refreshPinIrq pin mask => some (s, refreshPinIrqCalls pin mask)

/-- Whether the driver goes ahead. Its flags have no part in that. -/
def DriverCall.accepted (c : DriverCall) : Bool := (c.run .zero).isSome

theorem run_isSome (s : DriverFlags) (c : DriverCall) : (c.run s).isSome = c.accepted := by
  cases c with
  | pwmSet sysHz pin freqHz dutyPct =>
    unfold DriverCall.accepted DriverCall.run pwmCtrlSetCalls
    rw [Option.isSome_map, Option.isSome_map]
  | tempRead => rfl
  | refreshPinIrq pin mask => rfl
  | _ =>
    unfold DriverCall.accepted DriverCall.run
    dsimp only [gpioCtrl, pwmCtrlOff, adcCtrlRead, i2cCtrl]
    split <;> rfl

/-- The flags, the chip, and the calls so far, the last one first. -/
structure Peripherals (χ : Type) where
  flags : DriverFlags
  hw : χ
  history : List DriverCall

section Runs

variable {χ : Type} (sdk : Sdk χ)

def Peripherals.next (w : Peripherals χ) (c : DriverCall) : Peripherals χ :=
  match c.run w.flags with
  | none => { w with history := c :: w.history }
  | some (flags, calls) => { flags, hw := sdk.after w.hw calls, history := c :: w.history }

/-- After start-up. -/
def Peripherals.start : Peripherals χ := ⟨.zero, sdk.reset, []⟩

/-- All calls in any order, from start-up. -/
def peripherals : LTS (Peripherals χ) DriverCall :=
  LTS.ofFun (· = Peripherals.start sdk) fun w c => some (w.next sdk c)

end Runs

end PicoBLE.Firmware
