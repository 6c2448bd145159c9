import PicoBLE.Firmware.Pins

/-!
# The blocks that are shared

`adc_ctrl.c` and `temp_sensor.c` both initialise the ADC the first time they
are used, and only `temp_sensor.c` switches its sensor on. If `adc_ctrl.c` comes
second, the sensor is off from then on.

A slice of the PWM block has one divider for the four pins that are connected to
it, and one level for every two. `pwm_ctrl_set` sets the slice up anew, so the
last pin of the slice decides for all of them.
-/

namespace PicoBLE.Firmware

open PicoBLE.Drivers
open LastWord

variable {χ : Type} {sdk : Sdk χ}

/-! ## Who writes to the blocks -/

/-- The call writes neither to the ADC nor to the PWM block. -/
def SdkCall.OnPads (c : SdkCall) : Prop := .adc ∉ c.blocks ∧ .pwm ∉ c.blocks

theorem gpioCtrl_pads {s : DriverFlags} {pin : Nat} {calls : List SdkCall} {r : Driven}
    (h : gpioCtrl s pin calls = some r) (hc : ∀ c ∈ calls, c.OnPads) : ∀ c ∈ r.2, c.OnPads := by
  unfold gpioCtrl at h
  split at h
  · exact absurd h.symm (Option.some_ne_none _)
  · obtain rfl := Option.some.inj h
    intro c hmem
    rcases List.mem_append.mp hmem with hfirst | hrest
    · unfold gpioEnsureInit at hfirst
      split at hfirst
      · exact absurd hfirst List.not_mem_nil
      · obtain rfl := List.mem_singleton.mp hfirst
        simp [SdkCall.OnPads, SdkCall.blocks]
    · exact hc c hrest

theorem i2cCtrl_pads {s : DriverFlags} {bus len : Nat} {calls : List SdkCall} {r : Driven}
    (h : i2cCtrl s bus len calls = some r) (hc : ∀ c ∈ calls, c.OnPads) : ∀ c ∈ r.2, c.OnPads := by
  unfold i2cCtrl at h
  split at h
  · exact absurd h.symm (Option.some_ne_none _)
  · obtain rfl := Option.some.inj h
    intro c hmem
    rcases List.mem_append.mp hmem with hfirst | hrest
    · unfold i2cEnsureInit at hfirst
      split at hfirst
      · exact absurd hfirst List.not_mem_nil
      · simp only [List.mem_cons, List.not_mem_nil, or_false] at hfirst
        rcases hfirst with rfl | rfl | rfl | rfl | rfl <;> simp [SdkCall.OnPads, SdkCall.blocks]
    · exact hc c hrest

theorem refreshPinIrq_pads (pin : Nat) (mask : Finset System.Edge) :
    ∀ c ∈ refreshPinIrqCalls pin mask, c.OnPads := by
  intro c hmem
  unfold refreshPinIrqCalls at hmem
  split at hmem
  · simp only [List.mem_cons, List.not_mem_nil, or_false] at hmem
    rcases hmem with rfl | rfl | rfl | rfl <;> simp [SdkCall.OnPads, SdkCall.blocks]
  · obtain rfl := List.mem_singleton.mp hmem
    simp [SdkCall.OnPads, SdkCall.blocks]

/-- **Each block has its drivers.** -/
theorem run_blocks {s : DriverFlags} {c : DriverCall} {r : Driven} (h : c.run s = some r) :
    (c.adcPin = none → c.isTemp = false → ∀ k ∈ r.2, .adc ∉ k.blocks) ∧
    (c.pwmSetting = none → c.pwmOffPin = none → ∀ k ∈ r.2, .pwm ∉ k.blocks) := by
  have hsplit : (∀ k ∈ r.2, k.OnPads) → (c.adcPin = none → c.isTemp = false →
      ∀ k ∈ r.2, .adc ∉ k.blocks) ∧
      (c.pwmSetting = none → c.pwmOffPin = none → ∀ k ∈ r.2, .pwm ∉ k.blocks) :=
    fun hall => ⟨fun _ _ k hk => (hall k hk).1, fun _ _ k hk => (hall k hk).2⟩
  cases c with
  | gpioWrite pin level => exact hsplit (gpioCtrl_pads h (by simp [SdkCall.OnPads, SdkCall.blocks]))
  | gpioToggle pin => exact hsplit (gpioCtrl_pads h (by simp [SdkCall.OnPads, SdkCall.blocks]))
  | gpioRead pin => exact hsplit (gpioCtrl_pads h (by simp [SdkCall.OnPads, SdkCall.blocks]))
  | pwmSet sysHz pin freqHz dutyPct =>
    obtain ⟨set, hset, rfl⟩ := Option.map_eq_some_iff.mp h
    exact ⟨fun _ _ => by simp [SdkCall.blocks], fun hs _ =>
      absurd (hs.symm.trans hset) (Option.some_ne_none _).symm⟩
  | pwmOff pin =>
    change pwmCtrlOff s pin = some r at h
    unfold pwmCtrlOff at h
    split at h
    · exact absurd h.symm (Option.some_ne_none _)
    · next hgood =>
      obtain rfl := Option.some.inj h
      exact ⟨fun _ _ => by simp [SdkCall.blocks],
        fun _ ho => absurd (ho.symm.trans (if_neg hgood)) (Option.some_ne_none _).symm⟩
  | adcRead pin =>
    change adcCtrlRead s pin = some r at h
    unfold adcCtrlRead at h
    split at h
    · exact absurd h.symm (Option.some_ne_none _)
    · next hvalid =>
      obtain rfl := Option.some.inj h
      have ha : (DriverCall.adcRead pin).adcPin = some pin := if_pos (not_not.mp hvalid)
      refine ⟨fun hno _ => absurd (hno.symm.trans ha) (Option.some_ne_none _).symm, fun _ _ => ?_⟩
      unfold ensureAdc ensureAdcPin
      split <;> split <;> simp [SdkCall.blocks]
  | tempRead =>
    obtain rfl := Option.some.inj h
    refine ⟨fun _ ht => absurd ht.symm Bool.false_ne_true, fun _ _ => ?_⟩
    unfold tempSensorReadC
    dsimp only
    split <;> simp [SdkCall.blocks]
  | i2cScan bus cap =>
    refine hsplit (i2cCtrl_pads h fun k hk => ?_)
    rw [SdkCall.OnPads, scan_blocks bus _ k hk]
    exact ⟨List.not_mem_nil, List.not_mem_nil⟩
  | i2cRead bus addr len => exact hsplit (i2cCtrl_pads h (by simp [SdkCall.OnPads, SdkCall.blocks]))
  | i2cWrite bus addr src =>
    exact hsplit (i2cCtrl_pads h (by simp [SdkCall.OnPads, SdkCall.blocks]))
  | refreshPinIrq pin mask =>
    obtain rfl := Option.some.inj h
    exact hsplit (refreshPinIrq_pads pin mask)

/-! ## The sensor -/

def usesAdc (c : DriverCall) : Prop := c.adcPin ≠ none

instance : DecidablePred usesAdc := fun c => inferInstanceAs (Decidable (c.adcPin ≠ none))

def usesTemp (c : DriverCall) : Prop := c.isTemp = true

instance : DecidablePred usesTemp := fun c => inferInstanceAs (Decidable (c.isTemp = true))

/-- How the call leaves the switch of the sensor, if it sets it. -/
def sensorWord (before : List DriverCall) (c : DriverCall) : Option Bool :=
  if usesTemp c ∧ happened usesTemp before = false then some true
  else if usesAdc c ∧ happened usesAdc before = false then some false
  else none

/-- `adc_ctrl.c` has been used for the first time after `temp_sensor.c`. -/
def AdcLate (history : List DriverCall) : Prop :=
  ∃ after c before, history = after ++ c :: before ∧ usesAdc c ∧ happened usesAdc before = false ∧
    happened usesTemp before = true

theorem adcLate_cons {c : DriverCall} {before : List DriverCall} : AdcLate (c :: before) ↔
    (usesAdc c ∧ happened usesAdc before = false ∧ happened usesTemp before = true) ∨
    AdcLate before := by
  constructor
  · rintro ⟨after, d, before', he, hd⟩
    cases after with
    | nil =>
      obtain ⟨rfl, rfl⟩ := List.cons.inj he
      exact .inl hd
    | cons e after => exact .inr ⟨after, d, before', (List.cons.inj he).2, hd⟩
  · rintro (hc | ⟨after, d, before', rfl, hd⟩)
    · exact ⟨[], c, before, rfl, hc⟩
    · exact ⟨c :: after, d, before', rfl, hd⟩

/-- Without the sensor it is not late. -/
theorem not_adcLate {history : List DriverCall} (h : happened usesTemp history = false) :
    ¬ AdcLate history := by
  rintro ⟨after, c, before, rfl, -, -, ht⟩
  obtain ⟨b, hb, hused⟩ := happened_iff.mp ht
  have hup := happened_iff.mpr ⟨b, List.mem_append_right after (List.mem_cons_of_mem c hb), hused⟩
  exact absurd (h.symm.trans hup) Bool.false_ne_true

/-- **The last word on the switch**, once the sensor has been used. -/
theorem lastWord_sensor {history : List DriverCall} (h : happened usesTemp history = true) :
    (lastWord sensorWord history = some true ∧ ¬ AdcLate history) ∨
    lastWord sensorWord history = some false ∧ AdcLate history := by
  induction history with
  | nil => exact absurd h Bool.false_ne_true
  | cons c before ih =>
    rw [adcLate_cons]
    cases htemp : happened usesTemp before with
    | false =>
      -- this is the first time
      have hc : usesTemp c := by
        rw [happened_cons, htemp, Bool.or_false] at h
        exact of_decide_eq_true h
      refine .inl ⟨lastWord_spoken (if_pos ⟨hc, htemp⟩), ?_⟩
      rintro (⟨-, -, hno⟩ | hlate)
      · exact Bool.false_ne_true hno
      · exact not_adcLate htemp hlate
    | true =>
      have hno : ¬ (usesTemp c ∧ happened usesTemp before = false) := fun hf =>
        Bool.false_ne_true (hf.2.symm.trans htemp)
      by_cases hadc : usesAdc c ∧ happened usesAdc before = false
      · have hword : sensorWord before c = some false := (if_neg hno).trans (if_pos hadc)
        exact .inr ⟨lastWord_spoken hword, .inl ⟨hadc.1, hadc.2, rfl⟩⟩
      · have hword : sensorWord before c = none := (if_neg hno).trans (if_neg hadc)
        rw [lastWord_silent hword]
        have hsame : (usesAdc c ∧ happened usesAdc before = false ∧ true = true) ∨ AdcLate before ↔
            AdcLate before :=
          or_iff_right fun hf => hadc ⟨hf.1, hf.2.1⟩
        rw [hsame]
        exact ih htemp

theorem adcRead_block (hsdk : sdk.Samples) {w : Peripherals χ} (hw : FlagsInv w)
    {pin : Nat} {r : Driven} (hrun : adcCtrlRead w.flags pin = some r) :
    sdk.tempOn (sdk.after w.hw r.2) = (sensorWord w.history (.adcRead pin)).getD (sdk.tempOn w.hw) ∧
      sdk.adcInput (sdk.after w.hw r.2) = pin - adcCtrlMinPin := by
  unfold adcCtrlRead at hrun
  split at hrun
  · exact absurd hrun.symm (Option.some_ne_none _)
  · next hvalid =>
    obtain rfl := Option.some.inj hrun
    have huses : usesAdc (.adcRead pin) := by
      show (if adcCtrlIsValid pin then some pin else none) ≠ none
      rw [if_pos (not_not.mp hvalid)]
      exact Option.some_ne_none pin
    have hno : ¬ (usesTemp (.adcRead pin) ∧ happened usesTemp w.history = false) :=
      fun hf => absurd hf.1 Bool.false_ne_true
    have hready : w.flags.adcReady = happened usesAdc w.history := hw.adcReady
    have hpin : ∀ h, sdk.tempOn (sdk.after h (ensureAdcPin (ensureAdc w.flags).1 pin).2) =
        sdk.tempOn h := by
      refine fun h => (hsdk.after h ?_).1
      unfold ensureAdcPin
      split <;> simp [SdkCall.blocks]
    have hselect : ∀ h, sdk.tempOn (sdk.after h [.adcSelectInput (pin - adcCtrlMinPin), .adcRead]) =
        sdk.tempOn h ∧
        sdk.adcInput (sdk.after h [.adcSelectInput (pin - adcCtrlMinPin), .adcRead]) =
            pin - adcCtrlMinPin := by
      intro h
      simp only [Sdk.after, List.foldl_cons, List.foldl_nil, (hsdk.read _).1, (hsdk.read _).2,
        hsdk.selectInput_tempOn, hsdk.selectInput, and_self]
    rw [Sdk.after_append, Sdk.after_append, (hselect _).1, (hselect _).2, hpin]
    refine ⟨?_, rfl⟩
    rw [sensorWord, if_neg hno]
    unfold ensureAdc
    split
    · next hup =>
      rw [if_neg fun hf => absurd (hf.2.symm.trans (hready.symm.trans hup)) Bool.false_ne_true]
      rfl
    · next hdown =>
      rw [if_pos ⟨huses, hready.symm.trans (Bool.eq_false_of_not_eq_true hdown)⟩]
      exact hsdk.adcInit w.hw

theorem tempRead_block (hsdk : sdk.Samples) {w : Peripherals χ} (hw : FlagsInv w) :
    sdk.tempOn (sdk.after w.hw (tempSensorReadC w.flags).2) =
        (sensorWord w.history .tempRead).getD (sdk.tempOn w.hw) ∧
      sdk.adcInput (sdk.after w.hw (tempSensorReadC w.flags).2) = 4 := by
  have hready : w.flags.tempReady = happened usesTemp w.history := hw.tempReady
  unfold tempSensorReadC sensorWord
  dsimp only
  rw [Sdk.after_append]
  simp only [Sdk.after, List.foldl_cons, List.foldl_nil, (hsdk.read _).1, (hsdk.read _).2,
    hsdk.selectInput_tempOn, hsdk.selectInput, and_true]
  split
  · next hup =>
    rw [if_neg fun hf => absurd (hf.2.symm.trans (hready.symm.trans hup)) Bool.false_ne_true]
    rfl
  · next hdown =>
    rw [if_pos ⟨rfl, hready.symm.trans (Bool.eq_false_of_not_eq_true hdown)⟩]
    exact hsdk.setTempSensorEnabled true _

theorem next_tempOn (hsdk : sdk.Samples) {w : Peripherals χ} (hw : FlagsInv w) (c : DriverCall) :
    sdk.tempOn (w.next sdk c).hw = (sensorWord w.history c).getD (sdk.tempOn w.hw) := by
  have hquiet : c.adcPin = none → c.isTemp = false → sensorWord w.history c = none := by
    intro ha ht
    unfold sensorWord
    rw [if_neg fun hf => absurd (ht.symm.trans hf.1) Bool.false_ne_true, if_neg fun hf =>
      absurd ha hf.1]
  rcases next_cases sdk w c with ⟨hno, he⟩ | ⟨r, hrun, -, he⟩
  · rw [he, hquiet hno.adc hno.temp]
    rfl
  · rw [he]
    have hother : c.adcPin = none → c.isTemp = false →
        sdk.tempOn (sdk.after w.hw r.2) = (sensorWord w.history c).getD (sdk.tempOn w.hw) := by
      intro ha ht
      rw [hquiet ha ht]
      exact (hsdk.after w.hw ((run_blocks hrun).1 ha ht)).1
    cases c with
    | adcRead pin => exact (adcRead_block hsdk hw hrun).1
    | tempRead =>
      obtain rfl := Option.some.inj hrun
      exact (tempRead_block hsdk hw).1
    | _ => exact hother rfl rfl

theorem tempOn_reachable (hsdk : sdk.Samples) {w : Peripherals χ}
    (h : (peripherals sdk).Reachable w) :
    Records sensorWord w.history (sdk.tempOn sdk.reset) (sdk.tempOn w.hw) :=
  records_reachable _ (fun w => sdk.tempOn w.hw) (fun _ c hw => next_tempOn hsdk hw c) h

/-- The product does not overflow. -/
theorem adcMv_toNat (raw : UInt16) : (adcMv raw).toNat = raw.toNat * 3300 / 4095 := by
  have hraw := raw.toNat_lt
  have hmul : (raw.toUInt32 * 3300).toNat = raw.toNat * 3300 := by
    rw [UInt32.toNat_mul, UInt16.toNat_toUInt32]
    exact Nat.mod_eq_of_lt (by show _ * 3300 < _; omega)
  rw [adcMv, UInt32.toNat_div, hmul]
  rfl

/-- **The two drivers of the ADC.** Whatever has been called, each of them reads its own input. The
sensor is switched on when `temp_sensor_read_c` reads it exactly if `adc_ctrl_read` has not been
used for the first time after it; and a reading of 12 bits is at most 3300 mV. -/
theorem adc_shared (hsdk : sdk.Samples) {w : Peripherals χ} (h : (peripherals sdk).Reachable w) :
    sdk.adcInput (w.next sdk .tempRead).hw = 4 ∧
    (sdk.tempOn (w.next sdk .tempRead).hw = true ↔ ¬ AdcLate w.history) ∧
    (∀ pin, adcCtrlIsValid pin = true → sdk.adcInput (w.next sdk (.adcRead pin)).hw = pin - 26) ∧
    ∀ raw : UInt16, raw.toNat < 2 ^ 12 →
      (adcMv raw).toNat = raw.toNat * 3300 / 4095 ∧ (adcMv raw).toNat ≤ 3300 := by
  have hw := flagsInv_reachable h
  refine ⟨(tempRead_block hsdk hw).2, ?_, fun pin hvalid => ?_, fun raw hraw => ?_⟩
  · have hreach : (peripherals sdk).Reachable (w.next sdk .tempRead) := LTS.Reachable.tail h rfl
    have hheld := tempOn_reachable hsdk hreach
    rw [next_history] at hheld
    have hlate : AdcLate (.tempRead :: w.history) ↔ AdcLate w.history :=
      adcLate_cons.trans (or_iff_right fun hf => hf.1 rfl)
    rw [hheld, ← hlate]
    rcases @lastWord_sensor (.tempRead :: w.history) rfl with ⟨hword, hno⟩ | ⟨hword, hyes⟩
    · rw [hword]
      exact iff_of_true rfl hno
    · rw [hword]
      exact iff_of_false Bool.false_ne_true (not_not_intro hyes)
  · rcases next_cases sdk w (.adcRead pin) with ⟨hno, -⟩ | ⟨r, hrun, -, he⟩
    · exact absurd (hno.adc.symm.trans (if_pos hvalid)) (Option.some_ne_none _).symm
    · rw [he]
      exact (adcRead_block hsdk hw hrun).2
  · rw [adcMv_toNat]
    exact ⟨rfl, by omega⟩

/-- `temp`, then `adc 26 read`. -/
def lateAdc : Peripherals Hardware :=
  [.tempRead, .adcRead 26].foldl (Peripherals.next rp2040) (.start rp2040)

/-- `adc 26 read`. -/
def earlyAdc : Peripherals Hardware := [.adcRead 26].foldl (Peripherals.next rp2040) (.start rp2040)

/-- Now `temp` reads a sensor that is off. The other way round it is on. -/
theorem lateAdc_shared : rp2040.tempOn (lateAdc.next rp2040 .tempRead).hw = false ∧
    rp2040.tempOn (earlyAdc.next rp2040 .tempRead).hw = true := by
  refine ⟨Bool.eq_false_of_not_eq_true fun hon => ?_, ?_⟩
  · refine (adc_shared rp2040_samples (reachable_calls (.init rfl) [.tempRead, .adcRead 26])).2.1.mp
      hon ?_
    exact ⟨[], .adcRead 26, [.tempRead], rfl, by decide, by decide, by decide⟩
  · refine (adc_shared rp2040_samples (reachable_calls (.init rfl) [.adcRead 26])).2.1.mpr
      (not_adcLate ?_)
    decide

/-! ## The slices -/

/-- What the call sets the slice up with. -/
def setWord (sdk : Sdk χ) (slice : Nat) (_ : List DriverCall) (c : DriverCall) :
    Option PwmSetting :=
  c.pwmSetting.filter fun set => sdk.sliceNum set.pin.toNat = slice

/-- How it leaves the slice: running or not. -/
def enabledWord (sdk : Sdk χ) (slice : Nat) (before : List DriverCall) (c : DriverCall) :
    Option Bool :=
  if (setWord sdk slice before c).isSome then some true
  else if c.pwmOffPin.any fun pin => sdk.sliceNum pin = slice then some false
  else none

/-- The divider, the wrap and the levels of a slice. -/
def PwmSlice.config (s : PwmSlice) : UInt8 × UInt8 × UInt16 × (Bool → UInt16) :=
  (s.divInt, s.divFrac, s.wrap, s.level)

/-- What `pwm_ctrl_set` makes of them: its own channel gets its level, and the other one none. -/
def slicedConfig (sdk : Sdk χ) (set : PwmSetting) : UInt8 × UInt8 × UInt16 × (Bool → UInt16) :=
  (set.divInt, set.divFrac, set.wrap,
    Function.update (fun _ => 0) (sdk.channel set.pin.toNat) set.level)

/-- A slice holds what the call says of it, and else what it held. -/
structure SliceAfter (sdk : Sdk χ) (slice : Nat) (before : List DriverCall) (c : DriverCall)
    (s s' : PwmSlice) : Prop where
  config : s'.config = ((setWord sdk slice before c).map (slicedConfig sdk)).getD s.config
  enabled : s'.enabled = (enabledWord sdk slice before c).getD s.enabled

/-- A call that says nothing of it. -/
theorem sliceAfter_quiet {slice : Nat} {before : List DriverCall} {c : DriverCall} (s : PwmSlice)
    (hset : setWord sdk slice before c = none) (ho : c.pwmOffPin = none) :
    SliceAfter sdk slice before c s s := by
  have hon : enabledWord sdk slice before c = none := by
    rw [enabledWord, hset, ho]
    rfl
  exact ⟨by rw [hset]; rfl, by rw [hon]; rfl⟩

theorem setWord_none {slice : Nat} {before : List DriverCall} {c : DriverCall}
    (hs : c.pwmSetting = none) : setWord sdk slice before c = none := by
  rw [setWord, hs, Option.filter_none]

theorem pwmSet_slice (hsdk : sdk.Modulates) (h : χ) (slice : Nat) (before : List DriverCall)
    {c : DriverCall} {set : PwmSetting} (hset : c.pwmSetting = some set) (ho : c.pwmOffPin = none) :
    SliceAfter sdk slice before c (sdk.slice h slice)
      (sdk.slice (sdk.after h [.gpioSetFunction set.pin.toNat .pwm,
        .pwmInit set.pin.toNat set.divInt set.divFrac set.wrap true,
        .pwmSetGpioLevel set.pin.toNat set.level]) slice) := by
  dsimp only [Sdk.after, List.foldl_cons, List.foldl_nil]
  rw [hsdk.setGpioLevel, hsdk.pwmInit]
  dsimp only
  by_cases hslice : sdk.sliceNum set.pin.toNat = slice
  · have hword : setWord sdk slice before c = some set := by
      rw [setWord, hset]
      exact Option.filter_some_pos (decide_eq_true hslice)
    subst hslice
    rw [Function.update_self, Function.update_self]
    exact ⟨by rw [hword]; rfl, by rw [enabledWord, hword]; rfl⟩
  · have hword : setWord sdk slice before c = none := by
      rw [setWord, hset]
      exact Option.filter_some_neg (by rw [decide_eq_false hslice])
    rw [Function.update_of_ne (Ne.symm hslice), Function.update_of_ne (Ne.symm hslice),
      hsdk.others _ _ (by simp [SdkCall.blocks])]
    exact sliceAfter_quiet _ hword ho

theorem pwmOff_slice (hsdk : sdk.Modulates) (slice : Nat) (before : List DriverCall)
    {w : Peripherals χ} {pin : Nat} {r : Driven} (hrun : pwmCtrlOff w.flags pin = some r) :
    SliceAfter sdk slice before (.pwmOff pin) (sdk.slice w.hw slice)
      (sdk.slice (sdk.after w.hw r.2) slice) := by
  unfold pwmCtrlOff at hrun
  split at hrun
  · exact absurd hrun.symm (Option.some_ne_none _)
  · next hgood =>
    obtain rfl := Option.some.inj hrun
    have hoff : (DriverCall.pwmOff pin).pwmOffPin = some pin := if_neg hgood
    have hword : setWord sdk slice before (.pwmOff pin) = none := setWord_none rfl
    dsimp only [Sdk.after, List.foldl_cons, List.foldl_nil]
    rw [hsdk.others _ _ (by simp [SdkCall.blocks]), hsdk.others _ _ (by simp [SdkCall.blocks]),
      hsdk.setEnabled]
    by_cases hslice : sdk.sliceNum pin = slice
    · subst hslice
      rw [Function.update_self]
      exact ⟨by rw [hword]; rfl, by rw [enabledWord, hword, hoff]; simp⟩
    · rw [Function.update_of_ne (Ne.symm hslice)]
      exact ⟨by rw [hword]; rfl, by rw [enabledWord, hword, hoff]; simp [hslice]⟩

/-- **One call and a slice.** -/
theorem next_slice (hsdk : sdk.Modulates) {w : Peripherals χ} (c : DriverCall) (slice : Nat) :
    SliceAfter sdk slice w.history c (sdk.slice w.hw slice)
      (sdk.slice (w.next sdk c).hw slice) := by
  rcases next_cases sdk w c with ⟨hno, he⟩ | ⟨r, hrun, -, he⟩
  · rw [he]
    exact sliceAfter_quiet _ (setWord_none hno.set) hno.off
  rw [he]
  have hother : c.pwmSetting = none → c.pwmOffPin = none →
      SliceAfter sdk slice w.history c (sdk.slice w.hw slice)
        (sdk.slice (sdk.after w.hw r.2) slice) := by
    intro hs ho
    rw [hsdk.after w.hw ((run_blocks hrun).2 hs ho)]
    exact sliceAfter_quiet _ (setWord_none hs) ho
  cases c with
  | pwmSet sysHz pin freqHz dutyPct =>
    obtain ⟨set, hset, rfl⟩ := Option.map_eq_some_iff.mp hrun
    exact pwmSet_slice hsdk w.hw slice _ hset rfl
  | pwmOff pin => exact pwmOff_slice hsdk slice _ hrun
  | _ => exact hother rfl rfl

/-- What a pin puts out, if it is connected to a slice that runs: the divider, the wrap, and its
level. -/
def Sdk.pwmOut (sdk : Sdk χ) (h : χ) (pin : Nat) : Option (UInt8 × UInt8 × UInt16 × UInt16) :=
  let s := sdk.slice h (sdk.sliceNum pin)
  if sdk.func h pin = .pwm ∧ s.enabled = true then
    some (s.divInt, s.divFrac, s.wrap, s.level (sdk.channel pin))
  else none

/-- What a setting comes to at a pin of its slice. -/
def sharedSetting (sdk : Sdk χ) (set : PwmSetting) (pin : Nat) : UInt8 × UInt8 × UInt16 × UInt16 :=
  (set.divInt, set.divFrac, set.wrap,
    if sdk.channel pin = sdk.channel set.pin.toNat then set.level else 0)

theorem pwmOut_config {h : χ} {pin : Nat} {set : PwmSetting} (hfunc : sdk.func h pin = .pwm)
    (hon : (sdk.slice h (sdk.sliceNum pin)).enabled = true)
    (hconfig : (sdk.slice h (sdk.sliceNum pin)).config = slicedConfig sdk set) :
    sdk.pwmOut h pin = some (sharedSetting sdk set pin) := by
  obtain ⟨hint, hrest⟩ := Prod.mk.inj hconfig
  obtain ⟨hfrac, hrest⟩ := Prod.mk.inj hrest
  obtain ⟨hwrap, hlevel⟩ := Prod.mk.inj hrest
  unfold Sdk.pwmOut sharedSetting
  dsimp only
  rw [if_pos ⟨hfunc, hon⟩, hint, hfrac, hwrap, hlevel, Function.update_apply]

/-- Who runs a slice has set it up. -/
theorem enabled_set {slice : Nat} {history : List DriverCall}
    (h : lastWord (enabledWord sdk slice) history = some true) :
    lastWord (setWord sdk slice) history ≠ none := by
  obtain ⟨after, c, before, rfl, hword, -⟩ := lastWord_eq_some.mp h
  unfold enabledWord at hword
  split at hword
  · next hset =>
    obtain ⟨set, hset⟩ := Option.isSome_iff_exists.mp hset
    exact lastWord_ne_none hset after
  · split at hword
    · exact absurd (Option.some.inj hword) Bool.false_ne_true
    · exact absurd hword.symm (Option.some_ne_none _)

/-- A slice holds what the last words on it say. -/
theorem slice_reachable (hsdk : sdk.Modulates) {w : Peripherals χ}
    (h : (peripherals sdk).Reachable w) (slice : Nat) :
    (sdk.slice w.hw slice).enabled =
      (lastWord (enabledWord sdk slice) w.history).getD false ∧
    (sdk.slice w.hw slice).config =
      ((lastWord (setWord sdk slice) w.history).map (slicedConfig sdk)).getD
        (sdk.slice sdk.reset slice).config := by
  have hon := records_reachable _ (fun w => (sdk.slice w.hw slice).enabled)
    (fun _ c _ => (next_slice hsdk c _).enabled) h
  have hconfig := records_reachable
    (fun before c => (setWord sdk slice before c).map (slicedConfig sdk))
    (fun w => (sdk.slice w.hw slice).config) (fun _ c _ => (next_slice hsdk c _).config) h
  rw [show (sdk.slice (Peripherals.start sdk).hw slice).enabled = false from hsdk.reset _] at hon
  rw [← lastWord_map]
  exact ⟨hon, hconfig⟩

/-- **The pins of a slice.** In every run a pin puts something out exactly if PWM was the last to
take it and the slice has not been stopped, through whatever pin, since it was last set up; and what
it puts out is what the last `pwm_ctrl_set` of the slice has asked for, with nothing on the channel
that was not its own. So setting up a pin, or stopping it, does the same to every other pin of the
slice. -/
theorem pwm_shared (hpins : sdk.Connects) (hsdk : sdk.Modulates) {w : Peripherals χ}
    (h : (peripherals sdk).Reachable w) :
    (∀ pin, sdk.pwmOut w.hw pin =
      if lastWord (takes pin) w.history = some .pwm ∧
          lastWord (enabledWord sdk (sdk.sliceNum pin)) w.history = some true then
        (lastWord (setWord sdk (sdk.sliceNum pin)) w.history).map fun set =>
          sharedSetting sdk set pin
      else none) ∧
    (∀ c set pin, c.pwmSetting = some set → sdk.sliceNum pin = sdk.sliceNum set.pin.toNat →
      sdk.func (w.next sdk c).hw pin = .pwm →
        sdk.pwmOut (w.next sdk c).hw pin = some (sharedSetting sdk set pin)) ∧
    ∀ q pin, q ≤ 29 → sdk.sliceNum pin = sdk.sliceNum q →
      sdk.pwmOut (w.next sdk (.pwmOff q)).hw pin = none := by
  refine ⟨fun pin => ?_, fun c set pin hc hslice hfunc => ?_, fun q pin hq hslice => ?_⟩
  · have hfunc : sdk.func w.hw pin = (lastWord (takes pin) w.history).getD .null :=
      func_reachable hpins h pin
    obtain ⟨hon, hconfig⟩ := slice_reachable hsdk h (sdk.sliceNum pin)
    by_cases hboth : lastWord (takes pin) w.history = some .pwm ∧
        lastWord (enabledWord sdk (sdk.sliceNum pin)) w.history = some true
    · obtain ⟨htaken, hrunning⟩ := hboth
      rw [if_pos ⟨htaken, hrunning⟩]
      obtain ⟨set, hset⟩ := Option.ne_none_iff_exists'.mp (enabled_set hrunning)
      rw [hset] at hconfig ⊢
      rw [htaken, Option.getD_some] at hfunc
      rw [hrunning, Option.getD_some] at hon
      exact pwmOut_config hfunc hon hconfig
    · rw [if_neg hboth]
      refine if_neg fun hout => hboth ⟨?_, ?_⟩
      · have htaken := Option.getD_eq_iff.mp (hfunc.symm.trans hout.1)
        exact htaken.resolve_right fun hno => absurd hno.2 (by decide)
      · have hrunning := Option.getD_eq_iff.mp (hon.symm.trans hout.2)
        exact hrunning.resolve_right fun hno => absurd hno.2 Bool.false_ne_true
  · obtain ⟨hconfig, hon⟩ := @next_slice _ _ hsdk w c (sdk.sliceNum pin)
    have hword : setWord sdk (sdk.sliceNum pin) w.history c = some set := by
      rw [setWord, hc]
      exact Option.filter_some_pos (decide_eq_true hslice.symm)
    rw [enabledWord, hword] at hon
    rw [hword] at hconfig
    exact pwmOut_config hfunc hon hconfig
  · obtain ⟨-, hon⟩ := @next_slice _ _ hsdk w (.pwmOff q) (sdk.sliceNum pin)
    have hoff : (DriverCall.pwmOff q).pwmOffPin = some q := if_neg (Nat.not_lt.mpr hq)
    have hset : setWord sdk (sdk.sliceNum pin) w.history (.pwmOff q) = none := rfl
    rw [enabledWord, hset, hoff, if_neg (by decide), Option.any_some,
      if_pos (decide_eq_true hslice.symm), Option.getD_some] at hon
    refine if_neg fun hout => ?_
    exact absurd (hon.symm.trans hout.2) Bool.false_ne_true

/-- `pwm 0 100 50`, and then `pwm 1 50 25`. -/
def twoChannels : Peripherals Hardware :=
  [.pwmSet 125000000 0 100 50, .pwmSet 125000000 1 50 25].foldl
    (Peripherals.next rp2040) (.start rp2040)

/-- Now pin 0 has the frequency of pin 1 and no level; and `pwm 0 off` stops them both. -/
theorem twoChannels_shared : rp2040.pwmOut twoChannels.hw 0 = some (38, 2, 0xFFFF, 0) ∧
    rp2040.pwmOut twoChannels.hw 1 = some (38, 2, 0xFFFF, 16384) ∧
    rp2040.pwmOut (twoChannels.next rp2040 (.pwmOff 0)).hw 1 = none := by
  have h : (peripherals rp2040).Reachable twoChannels := reachable_calls (.init rfl) _
  obtain ⟨hout, -, hoff⟩ := pwm_shared rp2040_connects rp2040_modulates h
  refine ⟨(hout 0).trans ?_, (hout 1).trans ?_, hoff 0 1 (by decide) rfl⟩
  · decide +kernel
  · decide +kernel

end PicoBLE.Firmware
