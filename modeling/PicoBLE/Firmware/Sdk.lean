import PicoBLE.System.BindingOps

/-!
# The SDK

The drivers reach the chip through the Pico SDK, which is not part of the
repository. What its calls do is therefore a parameter (`Sdk`), and what the
drivers rely on is said of it in four assumptions, one for each block that is
written: what the documentation of a call says that it writes there, and that
the other calls leave the block alone.

`rp2040` is a chip that meets them all.
-/

namespace PicoBLE.Firmware

open PicoBLE.System (Edge)

/-! ## The calls -/

/-- What a pin is connected to: `GPIO_FUNC_NULL`, `GPIO_FUNC_SIO` and so on. -/
inductive PinFunc where
  | null
  | sio
  | pwm
  | i2c
deriving DecidableEq, Repr

/-- The calls of the SDK. -/
inductive SdkCall where
  | gpioInit (pin : Nat)
  | gpioSetDir (pin : Nat) (out : Bool)
  | gpioPut (pin : Nat) (level : Bool)
  /-- `gpio_xor_mask(1u << pin)`. -/
  | gpioXor (pin : Nat)
  | gpioGet (pin : Nat)
  | gpioSetFunction (pin : Nat) (f : PinFunc)
  | gpioPullUp (pin : Nat)
  | gpioSetIrqEnabled (pin : Nat) (events : Finset Edge) (on : Bool)
  | adcInit
  | adcGpioInit (pin : Nat)
  | adcSelectInput (input : Nat)
  | adcRead
  | adcSetTempSensorEnabled (on : Bool)
  /-- `pwm_init`, for the slice that `pwm_gpio_to_slice_num` gives for the pin. -/
  | pwmInit (pin : Nat) (divInt divFrac : UInt8) (wrap : UInt16) (start : Bool)
  | pwmSetGpioLevel (pin : Nat) (level : UInt16)
  /-- `pwm_set_enabled`, for the slice of the pin. -/
  | pwmSetEnabled (pin : Nat) (on : Bool)
  | i2cInit (bus hz : Nat)
  | i2cReadBlocking (bus addr len : Nat)
  | i2cWriteBlocking (bus addr : Nat) (src : List UInt8)

/-- The parts of the chip that the drivers share. -/
inductive SdkBlock where
  /-- What each pin is connected to. -/
  | func
  /-- Direction and level of each pin. -/
  | sio
  | adc
  | pwm
deriving DecidableEq

/-- Where a call may write. -/
def SdkCall.blocks : SdkCall → List SdkBlock
  | gpioInit _ => [.func, .sio]
  | gpioSetDir _ _ | gpioPut _ _ | gpioXor _ => [.sio]
  | gpioSetFunction _ _ | adcGpioInit _ => [.func]
  | adcInit | adcSelectInput _ | adcRead | adcSetTempSensorEnabled _ => [.adc]
  | pwmInit .. | pwmSetGpioLevel .. | pwmSetEnabled .. => [.pwm]
  | gpioGet _ | gpioPullUp _ | gpioSetIrqEnabled .. => []
  | i2cInit .. | i2cReadBlocking .. | i2cWriteBlocking .. => []

/-- A slice of the PWM block. Its two channels have a level each. -/
structure PwmSlice where
  divInt : UInt8
  divFrac : UInt8
  wrap : UInt16
  level : Bool → UInt16
  enabled : Bool

/-! ## The chip -/

/-- The SDK and the chip under it: what a call makes of the chip, and what can be read off it. -/
structure Sdk (χ : Type) where
  /-- After a reset. -/
  reset : χ
  call : SdkCall → χ → χ
  func : χ → Nat → PinFunc
  isOut : χ → Nat → Bool
  out : χ → Nat → Bool
  /-- The switch of the temperature sensor. -/
  tempOn : χ → Bool
  /-- The input that is selected. -/
  adcInput : χ → Nat
  slice : χ → Nat → PwmSlice
  /-- `pwm_gpio_to_slice_num`. -/
  sliceNum : Nat → Nat
  /-- `pwm_gpio_to_channel`. -/
  channel : Nat → Bool

namespace Sdk

variable {χ : Type}

/-- One call after the other. -/
def after (sdk : Sdk χ) (h : χ) (calls : List SdkCall) : χ :=
  calls.foldl (fun h c => sdk.call c h) h

theorem after_append (sdk : Sdk χ) (h : χ) (calls calls' : List SdkCall) :
    sdk.after h (calls ++ calls') = sdk.after (sdk.after h calls) calls' := List.foldl_append

/-- What no call writes stays. -/
theorem after_frame {sdk : Sdk χ} {β : Type} {view : χ → β} {calls : List SdkCall} (h : χ)
    (hc : ∀ c ∈ calls, ∀ h, view (sdk.call c h) = view h) : view (sdk.after h calls) = view h := by
  induction calls generalizing h with
  | nil => rfl
  | cons c calls ih =>
    show view (sdk.after (sdk.call c h) calls) = view h
    rw [ih (sdk.call c h) fun d hd => hc d (List.mem_cons_of_mem _ hd)]
    exact hc c List.mem_cons_self h

/-! ## What is documented -/

/-- **What a pin is connected to**, by `hardware_gpio` and `hardware_adc`. -/
structure Connects (sdk : Sdk χ) : Prop where
  /-- No pin is connected after a reset. -/
  reset : ∀ pin, sdk.func sdk.reset pin = .null
  /-- `gpio_init` sets the function to SIO. -/
  gpioInit : ∀ pin h, sdk.func (sdk.call (.gpioInit pin) h) = Function.update (sdk.func h) pin .sio
  gpioSetFunction : ∀ pin f h,
    sdk.func (sdk.call (.gpioSetFunction pin f) h) = Function.update (sdk.func h) pin f
  /-- `adc_gpio_init` disables all digital functions of the pin. -/
  adcGpioInit : ∀ pin h, sdk.func (sdk.call (.adcGpioInit pin) h) =
    Function.update (sdk.func h) pin .null
  others : ∀ c h, .func ∉ c.blocks → sdk.func (sdk.call c h) = sdk.func h

/-- **Direction and level** of the pins, by `hardware_gpio`. -/
structure Steers (sdk : Sdk χ) : Prop where
  /-- `gpio_init` makes the pin an input and clears its output value. -/
  gpioInit_isOut : ∀ pin h, sdk.isOut (sdk.call (.gpioInit pin) h) =
    Function.update (sdk.isOut h) pin false
  gpioInit_out : ∀ pin h, sdk.out (sdk.call (.gpioInit pin) h) =
    Function.update (sdk.out h) pin false
  setDir_isOut : ∀ pin o h, sdk.isOut (sdk.call (.gpioSetDir pin o) h) =
    Function.update (sdk.isOut h) pin o
  setDir_out : ∀ pin o h, sdk.out (sdk.call (.gpioSetDir pin o) h) = sdk.out h
  put_isOut : ∀ pin level h, sdk.isOut (sdk.call (.gpioPut pin level) h) = sdk.isOut h
  put_out : ∀ pin level h, sdk.out (sdk.call (.gpioPut pin level) h) =
    Function.update (sdk.out h) pin level
  xor_isOut : ∀ pin h, sdk.isOut (sdk.call (.gpioXor pin) h) = sdk.isOut h
  xor_out : ∀ pin h, sdk.out (sdk.call (.gpioXor pin) h) =
    Function.update (sdk.out h) pin (!sdk.out h pin)
  others : ∀ c h, .sio ∉ c.blocks →
    sdk.isOut (sdk.call c h) = sdk.isOut h ∧ sdk.out (sdk.call c h) = sdk.out h

/-- **The ADC**, by `hardware_adc`. -/
structure Samples (sdk : Sdk χ) : Prop where
  /-- `adc_init` resets the block, and with it the switch of the sensor. -/
  adcInit : ∀ h, sdk.tempOn (sdk.call .adcInit h) = false
  setTempSensorEnabled : ∀ on h, sdk.tempOn (sdk.call (.adcSetTempSensorEnabled on) h) = on
  selectInput : ∀ input h, sdk.adcInput (sdk.call (.adcSelectInput input) h) = input
  selectInput_tempOn : ∀ input h, sdk.tempOn (sdk.call (.adcSelectInput input) h) = sdk.tempOn h
  /-- A conversion changes neither. -/
  read : ∀ h, sdk.tempOn (sdk.call .adcRead h) = sdk.tempOn h ∧
    sdk.adcInput (sdk.call .adcRead h) = sdk.adcInput h
  others : ∀ c h, .adc ∉ c.blocks →
    sdk.tempOn (sdk.call c h) = sdk.tempOn h ∧ sdk.adcInput (sdk.call c h) = sdk.adcInput h

/-- **The PWM block**, by `hardware_pwm`. -/
structure Modulates (sdk : Sdk χ) : Prop where
  /-- No slice runs after a reset. -/
  reset : ∀ n, (sdk.slice sdk.reset n).enabled = false
  /-- `pwm_init` sets both levels to 0. -/
  pwmInit : ∀ pin divInt divFrac wrap start h,
    sdk.slice (sdk.call (.pwmInit pin divInt divFrac wrap start) h) =
      Function.update (sdk.slice h) (sdk.sliceNum pin) ⟨divInt, divFrac, wrap, fun _ => 0, start⟩
  /-- `pwm_set_gpio_level` sets the level of the channel of the pin, in its slice. -/
  setGpioLevel : ∀ pin level h, sdk.slice (sdk.call (.pwmSetGpioLevel pin level) h) =
    let s := sdk.slice h (sdk.sliceNum pin)
    Function.update (sdk.slice h) (sdk.sliceNum pin)
      { s with level := Function.update s.level (sdk.channel pin) level }
  setEnabled : ∀ pin on h, sdk.slice (sdk.call (.pwmSetEnabled pin on) h) =
    Function.update (sdk.slice h) (sdk.sliceNum pin)
      { sdk.slice h (sdk.sliceNum pin) with enabled := on }
  others : ∀ c h, .pwm ∉ c.blocks → sdk.slice (sdk.call c h) = sdk.slice h

variable {sdk : Sdk χ} {calls : List SdkCall}

theorem Connects.after (hsdk : sdk.Connects) (h : χ) (hc : ∀ c ∈ calls, .func ∉ c.blocks) :
    sdk.func (sdk.after h calls) = sdk.func h :=
  after_frame h fun c hmem h => hsdk.others c h (hc c hmem)

theorem Samples.after (hsdk : sdk.Samples) (h : χ) (hc : ∀ c ∈ calls, .adc ∉ c.blocks) :
    sdk.tempOn (sdk.after h calls) = sdk.tempOn h ∧
    sdk.adcInput (sdk.after h calls) = sdk.adcInput h :=
  ⟨after_frame h fun c hmem h => (hsdk.others c h (hc c hmem)).1,
    after_frame h fun c hmem h => (hsdk.others c h (hc c hmem)).2⟩

theorem Modulates.after (hsdk : sdk.Modulates) (h : χ) (hc : ∀ c ∈ calls, .pwm ∉ c.blocks) :
    sdk.slice (sdk.after h calls) = sdk.slice h :=
  after_frame h fun c hmem h => hsdk.others c h (hc c hmem)

end Sdk

/-! ## A chip -/

/-- The registers that the calls write. -/
structure Hardware where
  func : Nat → PinFunc
  isOut : Nat → Bool
  out : Nat → Bool
  slice : Nat → PwmSlice
  tempOn : Bool
  adcInput : Nat

/-- Eight slices with two pins each, and these again from pin 16 on. -/
def pwmGpioToSliceNum (pin : Nat) : Nat := pin / 2 % 8

def pwmGpioToChannel (pin : Nat) : Bool := pin % 2 = 1

namespace Hardware

/-- After a reset. -/
def reset : Hardware where
  func := fun _ => .null
  isOut := fun _ => false
  out := fun _ => false
  slice := fun _ => ⟨1, 0, 0xFFFF, fun _ => 0, false⟩
  tempOn := false
  adcInput := 0

/-- What a call writes. -/
def call : SdkCall → Hardware → Hardware
  | .gpioInit pin, h =>
    { h with
      func := Function.update h.func pin .sio
      isOut := Function.update h.isOut pin false
      out := Function.update h.out pin false }
  | .gpioSetDir pin out, h => { h with isOut := Function.update h.isOut pin out }
  | .gpioPut pin level, h => { h with out := Function.update h.out pin level }
  | .gpioXor pin, h => { h with out := Function.update h.out pin (!h.out pin) }
  | .gpioSetFunction pin f, h => { h with func := Function.update h.func pin f }
  | .adcInit, h => { h with tempOn := false, adcInput := 0 }
  | .adcGpioInit pin, h => { h with func := Function.update h.func pin .null }
  | .adcSelectInput input, h => { h with adcInput := input }
  | .adcSetTempSensorEnabled on, h => { h with tempOn := on }
  | .pwmInit pin divInt divFrac wrap start, h =>
    let s := ⟨divInt, divFrac, wrap, fun _ => 0, start⟩
    { h with slice := Function.update h.slice (pwmGpioToSliceNum pin) s }
  | .pwmSetGpioLevel pin level, h =>
    let s := h.slice (pwmGpioToSliceNum pin)
    let s := { s with level := Function.update s.level (pwmGpioToChannel pin) level }
    { h with slice := Function.update h.slice (pwmGpioToSliceNum pin) s }
  | .pwmSetEnabled pin on, h =>
    let s := { h.slice (pwmGpioToSliceNum pin) with enabled := on }
    { h with slice := Function.update h.slice (pwmGpioToSliceNum pin) s }
  | .gpioGet _, h | .gpioPullUp _, h | .gpioSetIrqEnabled _ _ _, h | .adcRead, h => h
  | .i2cInit _ _, h | .i2cReadBlocking _ _ _, h | .i2cWriteBlocking _ _ _, h => h

end Hardware

/-- The chip of the Pico W. -/
def rp2040 : Sdk Hardware where
  reset := .reset
  call := Hardware.call
  func := Hardware.func
  isOut := Hardware.isOut
  out := Hardware.out
  tempOn := Hardware.tempOn
  adcInput := Hardware.adcInput
  slice := Hardware.slice
  sliceNum := pwmGpioToSliceNum
  channel := pwmGpioToChannel

theorem rp2040_connects : rp2040.Connects where
  reset := fun _ => rfl
  gpioInit := fun _ _ => rfl
  gpioSetFunction := fun _ _ _ => rfl
  adcGpioInit := fun _ _ => rfl
  others := fun c h hno => by cases c <;> first | rfl | exact absurd (by simp [SdkCall.blocks]) hno

theorem rp2040_steers : rp2040.Steers where
  gpioInit_isOut := fun _ _ => rfl
  gpioInit_out := fun _ _ => rfl
  setDir_isOut := fun _ _ _ => rfl
  setDir_out := fun _ _ _ => rfl
  put_isOut := fun _ _ _ => rfl
  put_out := fun _ _ _ => rfl
  xor_isOut := fun _ _ => rfl
  xor_out := fun _ _ => rfl
  others := fun c h hno =>
    by cases c <;> first | exact ⟨rfl, rfl⟩ | exact absurd (by simp [SdkCall.blocks]) hno

theorem rp2040_samples : rp2040.Samples where
  adcInit := fun _ => rfl
  setTempSensorEnabled := fun _ _ => rfl
  selectInput := fun _ _ => rfl
  selectInput_tempOn := fun _ _ => rfl
  read := fun _ => ⟨rfl, rfl⟩
  others := fun c h hno =>
    by cases c <;> first | exact ⟨rfl, rfl⟩ | exact absurd (by simp [SdkCall.blocks]) hno

theorem rp2040_modulates : rp2040.Modulates where
  reset := fun _ => rfl
  pwmInit := fun _ _ _ _ _ _ => rfl
  setGpioLevel := fun _ _ _ => rfl
  setEnabled := fun _ _ _ => rfl
  others := fun c h hno => by cases c <;> first | rfl | exact absurd (by simp [SdkCall.blocks]) hno

end PicoBLE.Firmware
