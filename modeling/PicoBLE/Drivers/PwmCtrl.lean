import Mathlib.Algebra.Order.Field.Rat
import Mathlib.Algebra.Order.Group.MinMax
import Mathlib.Data.Nat.Cast.Order.Field
import Mathlib.Tactic.FieldSimp
import Mathlib.Tactic.Linarith
import Mathlib.Tactic.NormNum
import Mathlib.Tactic.Positivity

/-!
# `drivers/pwm_ctrl.c`

The counter always runs up to 65535, and the frequency is set with the divider
of the clock, which is counted in sixteenths and has 12 bits. What the
frequency asks for is rounded down, and brought into the range of the divider.

The level is a number of 0 to 65536 and goes into 16 bits.
-/

namespace PicoBLE.Drivers

/-- `compute_div_wrap`, when `clock_get_hz(clk_sys)` returns `sysHz`: `*div_1616` and `*wrap`. -/
def computeDivWrap (sysHz freqHz : UInt32) : Option (UInt32 × UInt16) :=
  if freqHz = 0 then none
  else if sysHz = 0 then none
  else
    let wrap : UInt16 := 65535
    let d : UInt64 := (sysHz.toUInt64 <<< 4) / (freqHz.toUInt64 * (wrap.toUInt32 + 1).toUInt64)
    let d := if d < 16 then 16 else d
    let d := if d ≥ (256 : UInt64) <<< 4 then ((256 : UInt64) <<< 4) - 1 else d
    some (d.toUInt32, wrap)

/-- What `pwm_ctrl_set` hands to the hardware. -/
structure PwmSetting where
  pin : UInt32
  /-- The arguments of `pwm_config_set_clkdiv_int_frac`. -/
  divInt : UInt8
  divFrac : UInt8
  wrap : UInt16
  level : UInt16
deriving DecidableEq

/-- `pwm_ctrl_set`, `none` for false. -/
def pwmCtrlSet (sysHz pin freqHz : UInt32) (dutyPct : UInt8) : Option PwmSetting :=
  if pin > 29 ∨ dutyPct > 100 then none
  else
    match computeDivWrap sysHz freqHz with
    | none => none
    | some (div, wrap) =>
      some
        { pin := pin, divInt := (div >>> 4).toUInt8, divFrac := (div &&& 0xF).toUInt8, wrap := wrap,
          level := ((wrap.toUInt32 + 1) * dutyPct.toUInt32 / 100).toUInt16 }

/-! ## What comes out -/

namespace PwmSetting

variable (s : PwmSetting)

/-- The divider, in sixteenths. -/
def div : Nat := 16 * s.divInt.toNat + s.divFrac.toNat

/-- The part of a period in which the pin is high. -/
def highTime : ℚ := s.level.toNat / (s.wrap.toNat + 1)

/-- The frequency of the pin. -/
def outputHz (sysHz : UInt32) : ℚ := sysHz.toNat * 16 / (s.div * (s.wrap.toNat + 1))

end PwmSetting

/-- The divider that the frequency asks for, in sixteenths. -/
def exactDiv (sysHz freqHz : UInt32) (wrap : UInt16) : ℚ :=
  sysHz.toNat * 16 / (freqHz.toNat * (wrap.toNat + 1))

/-- The request, as it would be realised without limits. -/
def Realises (sysHz pin freqHz : UInt32) (dutyPct : UInt8) : Prop :=
  ∀ s, pwmCtrlSet sysHz pin freqHz dutyPct = some s →
    (16 ≤ s.div ∧ s.div ≤ 4095) ∧ s.level.toNat = (s.wrap.toNat + 1) * dutyPct.toNat / 100 ∧
      |(s.div : ℚ) - exactDiv sysHz freqHz s.wrap| ≤ 1

/-! ## The divider -/

/-- A quotient is rounded down by less than one, and a range makes no more of that. -/
theorem clamp_div_lt (m : Nat) {n : Nat} (hn : 0 < n) (lo hi : Nat) :
    |((max (min (m / n) hi) lo : Nat) : ℚ) - max (min (m / n : ℚ) hi) lo| < 1 := by
  have hpos : (0 : ℚ) < n := Nat.cast_pos.mpr hn
  have hfloor : ((m / n : Nat) : ℚ) ≤ m / n := Nat.cast_div_le
  have hnext : (m / n : ℚ) < (m / n : Nat) + 1 := by
    rw [div_lt_iff₀ hpos]
    exact_mod_cast Nat.lt_mul_of_div_lt (Nat.lt_succ_self (m / n)) hn
  rw [Nat.cast_max, Nat.cast_min]
  calc _ ≤ |min ((m / n : Nat) : ℚ) hi - min (m / n : ℚ) hi| := abs_max_sub_max_le_abs _ _ _
    _ ≤ |((m / n : Nat) : ℚ) - m / n| := abs_inf_sub_inf_le_abs _ _ _
    _ < 1 := by
      rw [abs_sub_lt_iff]
      exact ⟨by linarith, by linarith⟩

/-- The range that `compute_div_wrap` keeps the divider in. -/
theorem clamped_toNat (q : UInt64) :
    (let d := if q < 16 then 16 else q
      if d ≥ (256 : UInt64) <<< 4 then ((256 : UInt64) <<< 4) - 1 else d).toUInt32.toNat =
      max (min q.toNat 4095) 16 := by
  dsimp only
  by_cases hlow : q < 16
  · have hlow' : q.toNat < 16 := UInt64.lt_iff_toNat_lt.mp hlow
    rw [if_pos hlow, if_neg (by decide)]
    show 16 = _
    omega
  · have hlow' : 16 ≤ q.toNat := Nat.le_of_not_lt fun h => hlow (UInt64.lt_iff_toNat_lt.mpr h)
    rw [if_neg hlow]
    by_cases hhigh : q ≥ (256 : UInt64) <<< 4
    · have hhigh' : 4096 ≤ q.toNat := UInt64.le_iff_toNat_le.mp hhigh
      rw [if_pos hhigh]
      show 4095 = _
      omega
    · have hhigh' : q.toNat < 4096 := Nat.lt_of_not_le fun h => hhigh (UInt64.le_iff_toNat_le.mpr h)
      rw [if_neg hhigh, UInt64.toNat_toUInt32]
      omega

/-- **The divider**: what the frequency asks for, rounded down, in the range there is. -/
theorem computeDivWrap_some {sysHz freqHz div : UInt32} {wrap : UInt16}
    (h : computeDivWrap sysHz freqHz = some (div, wrap)) :
    0 < freqHz.toNat ∧ wrap = 65535 ∧
      div.toNat = max (min (sysHz.toNat * 16 / (freqHz.toNat * 65536)) 4095) 16 := by
  have hsys := sysHz.toNat_lt
  have hfreq := freqHz.toNat_lt
  unfold computeDivWrap at h
  split at h
  · exact absurd h (by simp)
  · next hne =>
    split at h
    · exact absurd h (by simp)
    · have hshift : (sysHz.toUInt64 <<< 4).toNat = sysHz.toNat * 16 := by
        simp [UInt64.toNat_shiftLeft]
        omega
      have hmul : (freqHz.toUInt64 * ((65535 : UInt16).toUInt32 + 1).toUInt64).toNat =
          freqHz.toNat * 65536 := by
        rw [UInt64.toNat_mul]
        simp
        omega
      obtain ⟨hdiv, hwrap⟩ := Prod.mk.inj (Option.some.inj h)
      have hpos : 0 < freqHz.toNat := Nat.pos_of_ne_zero fun h0 => hne (UInt32.toNat_inj.mp h0)
      refine ⟨hpos, hwrap.symm, ?_⟩
      rw [← hdiv, clamped_toNat, UInt64.toNat_div, hshift, hmul]

/-! ## The setting -/

/-- The integer and the fraction are the divider. -/
theorem split_div {div : UInt32} (h : div.toNat ≤ 4095) :
    16 * (div >>> 4).toUInt8.toNat + (div &&& 0xF).toUInt8.toNat = div.toNat := by
  have hint : (div >>> 4).toNat = div.toNat / 16 := by
    rw [UInt32.toNat_shiftRight]
    exact Nat.shiftRight_eq_div_pow _ 4
  have hfrac : (div &&& 0xF).toNat = div.toNat % 16 := by
    rw [UInt32.toNat_and]
    exact Nat.and_two_pow_sub_one_eq_mod _ 4
  rw [UInt32.toNat_toUInt8, UInt32.toNat_toUInt8, hint, hfrac]
  omega

/-- A level below 65536 is not cut off. -/
theorem level_toNat {dutyPct : UInt8} (h : dutyPct < 100) :
    (((65535 : UInt16).toUInt32 + 1) * dutyPct.toUInt32 / 100).toUInt16.toNat =
      65536 * dutyPct.toNat / 100 := by
  have hduty : dutyPct.toNat < 100 := UInt8.lt_iff_toNat_lt.mp h
  have hmul : (((65535 : UInt16).toUInt32 + 1) * dutyPct.toUInt32).toNat =
      65536 * dutyPct.toNat := by
    rw [UInt32.toNat_mul]
    show 65536 * dutyPct.toUInt32.toNat % 2 ^ 32 = _
    rw [UInt8.toNat_toUInt32]
    omega
  rw [UInt32.toNat_toUInt16, UInt32.toNat_div, hmul]
  show 65536 * dutyPct.toNat / 100 % 2 ^ 16 = _
  omega

/-- **What `pwm_ctrl_set` sets.** -/
theorem pwmCtrlSet_some {sysHz pin freqHz : UInt32} {dutyPct : UInt8} {s : PwmSetting}
    (h : pwmCtrlSet sysHz pin freqHz dutyPct = some s) :
    0 < freqHz.toNat ∧ s.wrap = 65535 ∧
      s.div = max (min (sysHz.toNat * 16 / (freqHz.toNat * 65536)) 4095) 16 ∧
      (dutyPct < 100 → s.level.toNat = 65536 * dutyPct.toNat / 100) := by
  unfold pwmCtrlSet at h
  split at h
  · exact absurd h (by simp)
  · split at h
    · exact absurd h (by simp)
    · next div wrap hdiv =>
      obtain rfl := Option.some.inj h
      obtain ⟨hpos, rfl, hclamp⟩ := computeDivWrap_some hdiv
      have hmax : div.toNat ≤ 4095 := by
        rw [hclamp]
        omega
      exact ⟨hpos, rfl, (split_div hmax).trans hclamp, level_toNat⟩

theorem exactDiv_eq (sysHz freqHz : UInt32) :
    exactDiv sysHz freqHz 65535 = ((sysHz.toNat * 16 : Nat) : ℚ) /
      (freqHz.toNat * 65536 : Nat) := by
  unfold exactDiv
  push_cast
  norm_num

/-- The output is off by what the divider is off. -/
theorem outputHz_eq {sysHz freqHz : UInt32} {s : PwmSetting} (hfreq : 0 < freqHz.toNat) :
    s.outputHz sysHz = freqHz.toNat * (exactDiv sysHz freqHz s.wrap / s.div) := by
  have hne : (freqHz.toNat : ℚ) ≠ 0 := Nat.cast_ne_zero.mpr (Nat.ne_of_gt hfreq)
  unfold PwmSetting.outputHz exactDiv
  field_simp

/-- In its range the divider is the quotient, rounded down. -/
theorem pwmCtrlSet_quotient {sysHz pin freqHz : UInt32} {dutyPct : UInt8} {s : PwmSetting}
    (h : pwmCtrlSet sysHz pin freqHz dutyPct = some s) (hlow : 16 ≤ exactDiv sysHz freqHz s.wrap)
    (hhigh : exactDiv sysHz freqHz s.wrap < 4096) :
    (s.div : ℚ) ≤ exactDiv sysHz freqHz s.wrap ∧ exactDiv sysHz freqHz s.wrap < s.div + 1 := by
  obtain ⟨hfreq, hwrap, hdiv, -⟩ := pwmCtrlSet_some h
  have hden : 0 < freqHz.toNat * 65536 := Nat.mul_pos hfreq (by decide)
  have hdenQ : (0 : ℚ) < (freqHz.toNat * 65536 : Nat) := Nat.cast_pos.mpr hden
  rw [hwrap, exactDiv_eq] at hlow hhigh ⊢
  have hquot : s.div = sysHz.toNat * 16 / (freqHz.toNat * 65536) := by
    rw [le_div_iff₀ hdenQ] at hlow
    rw [div_lt_iff₀ hdenQ] at hhigh
    have hlow' : 16 ≤ sysHz.toNat * 16 / (freqHz.toNat * 65536) :=
      (Nat.le_div_iff_mul_le hden).mpr (by exact_mod_cast hlow)
    have hhigh' : sysHz.toNat * 16 / (freqHz.toNat * 65536) < 4096 :=
      (Nat.div_lt_iff_lt_mul hden).mpr (by exact_mod_cast hhigh)
    rw [hdiv]
    omega
  rw [hquot]
  refine ⟨Nat.cast_div_le, ?_⟩
  rw [div_lt_iff₀ hdenQ]
  exact_mod_cast Nat.lt_mul_of_div_lt (Nat.lt_succ_self _) hden

/-- **The request is realised** as far as the divider goes: its setting is the one asked for,
brought into its range and rounded down; the level of a duty below 100 is exact, and its high time
grows with the duty; and where the divider is in its range, the frequency is at most one part in
`div` too high. -/
theorem pwm_realises {sysHz pin freqHz : UInt32} {dutyPct : UInt8} {s : PwmSetting}
    (h : pwmCtrlSet sysHz pin freqHz dutyPct = some s) :
    (16 ≤ s.div ∧ s.div ≤ 4095) ∧
      (dutyPct < 100 → s.level.toNat = (s.wrap.toNat + 1) * dutyPct.toNat / 100 ∧
        ∀ dutyPct' s', dutyPct' ≤ dutyPct → pwmCtrlSet sysHz pin freqHz dutyPct' = some s' →
          s'.highTime ≤ s.highTime) ∧
      |(s.div : ℚ) - max (min (exactDiv sysHz freqHz s.wrap) 4095) 16| < 1 ∧
      (16 ≤ exactDiv sysHz freqHz s.wrap → exactDiv sysHz freqHz s.wrap < 4096 →
        freqHz.toNat ≤ s.outputHz sysHz ∧ s.outputHz sysHz < freqHz.toNat * (1 + 1 / s.div)) := by
  obtain ⟨hfreq, hwrap, hdiv, hlevel⟩ := pwmCtrlSet_some h
  have hden : 0 < freqHz.toNat * 65536 := Nat.mul_pos hfreq (by decide)
  have hrange : 16 ≤ s.div ∧ s.div ≤ 4095 := by
    rw [hdiv]
    omega
  refine ⟨hrange, fun hduty => ⟨?_, fun dutyPct' s' hle h' => ?_⟩, ?_, fun hlow hhigh => ?_⟩
  · rw [hlevel hduty, hwrap]
    rfl
  · obtain ⟨-, hwrap', -, hlevel'⟩ := pwmCtrlSet_some h'
    have hle' : dutyPct'.toNat ≤ dutyPct.toNat := UInt8.le_iff_toNat_le.mp hle
    have hlevels : s'.level.toNat ≤ s.level.toNat := by
      rw [hlevel hduty, hlevel' (UInt8.lt_of_le_of_lt hle hduty)]
      exact Nat.div_le_div_right (Nat.mul_le_mul_left _ hle')
    unfold PwmSetting.highTime
    rw [hwrap, hwrap']
    exact div_le_div_of_nonneg_right (Nat.cast_le.mpr hlevels) (by positivity)
  · rw [hdiv, hwrap, exactDiv_eq]
    exact_mod_cast clamp_div_lt _ hden 16 4095
  · have hpos : (0 : ℚ) < s.div := Nat.cast_pos.mpr (by omega)
    have hfreqQ : (0 : ℚ) < freqHz.toNat := Nat.cast_pos.mpr hfreq
    obtain ⟨hfloor, hnext⟩ := pwmCtrlSet_quotient h hlow hhigh
    rw [outputHz_eq hfreq]
    constructor
    · exact le_mul_of_one_le_right hfreqQ.le ((one_le_div hpos).mpr hfloor)
    · refine mul_lt_mul_of_pos_left ?_ hfreqQ
      rw [div_lt_iff₀ hpos, add_mul, one_div_mul_cancel hpos.ne', one_mul]
      exact hnext

/-- A thousand hertz, and a quarter of the time. -/
def quarterKhz : PwmSetting := ⟨25, 1, 14, 65535, 16384⟩

theorem quarterKhz_realised : quarterKhz.level.toNat = 65536 * 25 / 100 ∧
    (1000 : ℚ) ≤ quarterKhz.outputHz 125000000 ∧
    quarterKhz.outputHz 125000000 < 1000 * (1 + 1 / 30) := by
  have hset : pwmCtrlSet 125000000 25 1000 25 = some quarterKhz := by decide +kernel
  obtain ⟨-, hlevel, -, hfreq⟩ := pwm_realises hset
  have hexact : exactDiv 125000000 1000 quarterKhz.wrap = 125000000 * 16 / (1000 * 65536) := by
    show ((125000000 : Nat) : ℚ) * 16 / ((1000 : Nat) * ((65535 : Nat) + 1)) = _
    norm_num
  rw [hexact] at hfreq
  exact ⟨(hlevel (by decide)).1, hfreq (by norm_num) (by norm_num)⟩

/-- One hertz is below what the divider can make, and the level of a duty of 100 is cut off to
nothing. -/
theorem limits_not_realised : ¬ Realises 125000000 25 1 50 ∧ ¬ Realises 125000000 25 1000 100 := by
  have hslow : pwmCtrlSet 125000000 25 1 50 = some ⟨25, 255, 15, 65535, 32768⟩ := by decide +kernel
  have hfull : pwmCtrlSet 125000000 25 1000 100 = some ⟨25, 1, 14, 65535, 0⟩ := by decide +kernel
  constructor
  · intro h
    have hstep : |((4095 : Nat) : ℚ) - (125000000 : Nat) * 16 / ((1 : Nat) * ((65535 : Nat) + 1))| ≤
        1 :=
      (h _ hslow).2.2
    norm_num [abs_le] at hstep
  · intro h
    exact absurd (h _ hfull).2.1 (by decide)

end PicoBLE.Drivers
