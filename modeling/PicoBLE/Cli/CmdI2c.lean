import PicoBLE.Firmware.Peripherals
import PicoBLE.Ota.HexDigest

/-!
# `cli/commands/cmd_i2c.c`, `cmd_pwm.c` and `cmd_adc.c`

The handlers read their arguments and call a driver. `i2c` prints addresses and
bytes in hexadecimal, and takes both as arguments: what a scan prints can be
read, and what a read prints can be written.
-/

namespace PicoBLE.Cli

open CString (ascii crlf itoa strtoul isSpace isXdigit skipSign negative)
open PicoBLE.Firmware

/-! ## Arguments -/

/-- The value of a hexadecimal digit, or `none` for -1. -/
def hexNibble (c : UInt8) : Option UInt8 :=
  if 48 ≤ c ∧ c ≤ 57 then some (c - 48)
  else if 97 ≤ c ∧ c ≤ 102 then some (10 + (c - 97))
  else if 65 ≤ c ∧ c ≤ 70 then some (10 + (c - 65))
  else none

/-- The number that hexadecimal digits spell. -/
def hexadecimal (ds : List UInt8) : Nat :=
  ds.foldl (fun v d => 16 * v + ((hexNibble d).getD 0).toNat) 0

/-- The rest after an optional `0x`, which counts only in front of a digit. -/
def skipHexPrefix : List UInt8 → List UInt8
  | 48 :: x :: d :: s =>
  if (x = 120 ∨ x = 88) ∧ isXdigit d = true then d :: s else 48 :: x :: d :: s
  | s => s

/-- `strtoul` with base 16: the value, and where the parse stopped. -/
def strtoul16 (s : List UInt8) : Nat × List UInt8 :=
  let t := s.dropWhile isSpace
  let digits := skipHexPrefix (skipSign t)
  let ds := digits.takeWhile isXdigit
  if ds = [] then (0, s)
  else
    let v := hexadecimal ds
    (if 2 ^ 32 ≤ v then 2 ^ 32 - 1 else if negative t then (2 ^ 32 - v) % 2 ^ 32
      else v, digits.dropWhile isXdigit)

/-- `parse_uint` and `parse_uint_base`, with the `strtoul` of the base. -/
def parseUint (toul : List UInt8 → Nat × List UInt8) (s : List UInt8) (max : Nat) : Option Nat :=
  if s = [] then none
  else
    let (v, stop) := toul s
    if stop ≠ [] ∨ v > max then none else some v

/-- An address, in decimal or with `0x`. -/
def parseAddr (s : List UInt8) : Option Nat :=
  let hex := s.head? = some 48 ∧ (s.tail.head? = some 120 ∨ s.tail.head? = some 88)
  match parseUint (if hex then strtoul16 else strtoul) s 0x77 with
  | none => none
  | some addr => if addr < 0x08 then none else some addr

/-- The loop of `parse_hex_bytes`, over pairs. -/
def hexPairs : List UInt8 → Option (List UInt8)
  | hi :: lo :: s =>
    match hexNibble hi, hexNibble lo with
    | some hi, some lo => (hexPairs s).map ((hi <<< 4 ||| lo) :: ·)
    | _, _ => none
  | _ => some []

/-- `parse_hex_bytes`, or `none` for -1. -/
def parseHexBytes (s : List UInt8) (max : Nat) : Option (List UInt8) :=
  if s.length = 0 ∨ s.length % 2 = 1 then none
  else if s.length / 2 > max then none
  else hexPairs s

/-- What `%02x` prints. -/
def hex02 (n : Nat) : List UInt8 :=
  let ds := (Nat.toDigits 16 n).map fun c => UInt8.ofNat c.toNat
  List.replicate (2 - ds.length) 48 ++ ds

/-! ## `i2c` -/

/-- The bus, as the SDK's blocking calls show it: what they return when they fail, and the bytes
that are read. -/
structure I2cBus where
  read : Nat → Nat → Nat → Except Int (List UInt8)
  write : Nat → Nat → List UInt8 → Except Int Unit

/-- `i2c_ctrl_scan`: the addresses that are found. -/
def i2cCtrlScan (dev : I2cBus) (bus cap : Nat) : List Nat :=
  if bus ≥ i2cBusMax ∨ cap = 0 then []
  else
    (List.range' 0x08 0x70).foldl (fun addrs a =>
      match dev.read bus a 1 with
      | .ok _ => if addrs.length < cap then addrs ++ [a] else addrs
      | .error _ => addrs) []

/-- `i2c_ctrl_read`. -/
def i2cCtrlRead (dev : I2cBus) (bus addr len : Nat) : Except Int (List UInt8) :=
  if bus ≥ i2cBusMax ∨ len = 0 then .error (-1) else dev.read bus addr len

/-- `i2c_ctrl_write`. -/
def i2cCtrlWrite (dev : I2cBus) (bus addr : Nat) (src : List UInt8) : Except Int Unit :=
  if bus ≥ i2cBusMax ∨ src.length = 0 then .error (-1) else dev.write bus addr src

/-- What a handler returns and prints, and the driver that it has called. -/
structure DriverRan where
  rc : Int
  out : List UInt8
  call : Option DriverCall

/-- `cmd_scan`. -/
def i2cScan (dev : I2cBus) (bus : Nat) : DriverRan :=
  let found := i2cCtrlScan dev bus 128
  if found = [] then ⟨cliOk, ascii "i2c: no devices found" ++ crlf, some (.i2cScan bus 128)⟩
  else
    let head := cliPrintf (ascii "i2c: " ++ itoa found.length ++ ascii " device(s):")
    ⟨cliOk, head ++ found.flatMap (fun a => cliPrintf (ascii " 0x" ++ hex02 a)) ++ crlf,
      some (.i2cScan bus 128)⟩

/-- `cmd_read`. -/
def i2cRead (dev : I2cBus) (bus : Nat) (addrArg lenArg : List UInt8) : DriverRan :=
  match parseAddr addrArg with
  | none =>
    ⟨cliErrArg, cliPrintf (ascii "i2c: bad address: " ++ addrArg ++ ascii " (0x08..0x77)" ++ crlf),
      none⟩
  | some addr =>
    match (parseUint strtoul lenArg 64).filter (· ≠ 0) with
    | none =>
      ⟨cliErrArg, cliPrintf (ascii "i2c: bad length: " ++ lenArg ++ ascii " (1..64)" ++ crlf), none⟩
    | some len =>
      match i2cCtrlRead dev bus addr len with
      | .error rc =>
        ⟨cliErrHardware, cliPrintf (ascii "i2c: read failed rc=" ++ itoa rc ++ crlf),
          some (.i2cRead bus addr len)⟩
      | .ok buf =>
        ⟨cliOk, buf.flatMap (fun b => cliPrintf (hex02 b.toNat)) ++ crlf,
          some (.i2cRead bus addr len)⟩

/-- `cmd_write`. -/
def i2cWrite (dev : I2cBus) (bus : Nat) (addrArg hexArg : List UInt8) : DriverRan :=
  match parseAddr addrArg with
  | none =>
    ⟨cliErrArg, cliPrintf (ascii "i2c: bad address: " ++ addrArg ++ ascii " (0x08..0x77)" ++ crlf),
      none⟩
  | some addr =>
    match parseHexBytes hexArg 64 with
    | none =>
      ⟨cliErrArg, cliPrintf (ascii "i2c: bad hex: " ++ hexArg ++ ascii
        " (need even-length hex chars)" ++ crlf), none⟩
    | some buf =>
      match i2cCtrlWrite dev bus addr buf with
      | .error rc =>
        ⟨cliErrHardware, cliPrintf (ascii "i2c: write failed rc=" ++ itoa rc ++ crlf),
          some (.i2cWrite bus addr buf)⟩
      | .ok _ => ⟨cliOk, [], some (.i2cWrite bus addr buf)⟩

/-- `handle`, of `cmd_i2c.c`. -/
def handleI2c (dev : I2cBus) (argv : List (List UInt8)) : DriverRan :=
  match argv with
  | _ :: busArg :: op :: args =>
    match parseUint strtoul busArg (i2cBusMax - 1) with
    | none =>
      let range := ascii " (0.." ++ itoa (i2cBusMax - 1 : Nat) ++ ascii ")"
      ⟨cliErrArg, cliPrintf (ascii "i2c: bad bus: " ++ busArg ++ range ++ crlf), none⟩
    | some bus =>
      if op = ascii "scan" then i2cScan dev bus
      else if op = ascii "read" then
        match args with
        | addrArg :: lenArg :: _ => i2cRead dev bus addrArg lenArg
        | _ => ⟨cliErrUsage, [], none⟩
      else if op = ascii "write" then
        match args with
        | addrArg :: hexArg :: _ => i2cWrite dev bus addrArg hexArg
        | _ => ⟨cliErrUsage, [], none⟩
      else ⟨cliErrUsage, cliPrintf (ascii "i2c: unknown op: " ++ op ++ crlf), none⟩
  | _ => ⟨cliErrUsage, [], none⟩

/-! ## `pwm` and `adc` -/

/-- `handle`, of `cmd_pwm.c`, when `clock_get_hz(clk_sys)` returns `sysHz`. -/
def handlePwm (sysHz : UInt32) (argv : List (List UInt8)) : DriverRan :=
  match argv with
  | _ :: pinArg :: what :: args =>
    match parseUint strtoul pinArg 29 with
    | none => ⟨cliErrArg, cliPrintf (ascii "pwm: bad pin: " ++ pinArg ++ crlf), none⟩
    | some pin =>
      if what = ascii "off" then
        ⟨if (DriverCall.pwmOff pin).accepted then cliOk else cliErrHardware, [], some (.pwmOff pin)⟩
      else
        match args with
        | [] => ⟨cliErrUsage, [], none⟩
        | dutyArg :: _ =>
          match (parseUint strtoul what 1000000).filter (· ≠ 0) with
          | none => ⟨cliErrArg, cliPrintf (ascii "pwm: bad freq: " ++ what ++ crlf), none⟩
          | some freq =>
            match parseUint strtoul dutyArg 100 with
            | none => ⟨cliErrArg,
              cliPrintf (ascii "pwm: bad duty " ++ dutyArg ++ ascii " (0..100)" ++ crlf), none⟩
            | some duty =>
              let call :=
                DriverCall.pwmSet sysHz (UInt32.ofNat pin) (UInt32.ofNat freq) (UInt8.ofNat duty)
              if call.accepted then ⟨cliOk, [], some call⟩
              else ⟨cliErrHardware, ascii "pwm: hardware setup failed" ++ crlf, some call⟩
  | _ => ⟨cliErrUsage, [], none⟩

/-- `handle`, of `cmd_adc.c`, when `adc_read` returns `raw`. -/
def handleAdc (raw : UInt16) (argv : List (List UInt8)) : DriverRan :=
  match argv with
  | _ :: pinArg :: action :: _ =>
    match (parseUint strtoul pinArg 255).filter (adcCtrlIsValid ·) with
    | none =>
      let range := itoa adcCtrlMinPin ++ ascii ".." ++ itoa adcCtrlMaxPin
      ⟨cliErrArg, cliPrintf (ascii "adc: pin must be " ++ range ++ ascii " (got " ++ pinArg ++ ascii
        ")" ++ crlf), none⟩
    | some pin =>
      if action ≠ ascii "read" then
        ⟨cliErrUsage, cliPrintf (ascii "adc: unknown action: " ++ action ++ crlf), none⟩
      else if (DriverCall.adcRead pin).accepted then
        let read := ascii "raw=" ++ itoa raw.toNat ++ ascii "  mv=" ++ itoa (adcMv raw).toNat
        ⟨cliOk, cliPrintf (read ++ crlf), some (.adcRead pin)⟩
      else ⟨cliErrHardware, ascii "adc: read failed" ++ crlf, some (.adcRead pin)⟩
  | _ => ⟨cliErrUsage, [], none⟩

/-! ## What is printed can be typed -/

/-- The two digits of a byte are read back. -/
theorem hex02_byte (b : UInt8) : ∃ hi lo, hex02 b.toNat = [hi, lo] ∧
    (hexNibble hi).bind (fun x => (hexNibble lo).map fun y => x <<< 4 ||| y) = some b := by
  have hpair : ∀ b : UInt8, hex02 b.toNat = Sha256.hexPair b :=
    CString.forall_char (by decide +kernel)
  have hnibble : ∀ c : UInt8, hexNibble c = Sha256.hexNibble c :=
    CString.forall_char (by decide +kernel)
  obtain ⟨hi, lo, he, hread, -⟩ := Sha256.hexPair_spec b
  refine ⟨hi, lo, (hpair b).trans he, ?_⟩
  rw [hnibble, hnibble]
  exact hread

/-- What is printed of bytes. -/
def hexText (bs : List UInt8) : List UInt8 := bs.flatMap fun b => hex02 b.toNat

theorem hexText_length (bs : List UInt8) : (hexText bs).length = 2 * bs.length := by
  induction bs with
  | nil => rfl
  | cons b bs ih =>
    obtain ⟨hi, lo, he, -⟩ := hex02_byte b
    rw [hexText, List.flatMap_cons, he, List.length_append]
    show 2 + (hexText bs).length = 2 * (bs.length + 1)
    rw [ih]
    omega

theorem hexPairs_text (bs : List UInt8) : hexPairs (hexText bs) = some bs := by
  induction bs with
  | nil => rfl
  | cons b bs ih =>
    obtain ⟨hi, lo, he, hread⟩ := hex02_byte b
    obtain ⟨x, hx, hlo⟩ := Option.bind_eq_some_iff.mp hread
    obtain ⟨y, hy, rfl⟩ := Option.map_eq_some_iff.mp hlo
    rw [hexText, List.flatMap_cons, he]
    show (match hexNibble hi, hexNibble lo with
      | some hi, some lo => (hexPairs (hexText bs)).map ((hi <<< 4 ||| lo) :: ·)
      | _, _ => none) = _
    rw [hx, hy, ih]
    rfl

/-- **Bytes that are printed are read back.** -/
theorem parseHexBytes_text {bs : List UInt8} {max : Nat} (hne : bs ≠ []) (hmax : bs.length ≤ max) :
    parseHexBytes (hexText bs) max = some bs := by
  have hlen := hexText_length bs
  have hpos : 0 < bs.length := List.length_pos_iff.mpr hne
  rw [parseHexBytes, if_neg (by omega), if_neg (by omega)]
  exact hexPairs_text bs

/-- **So are addresses.** -/
theorem parseAddr_text {a : Nat} (hlow : 0x08 ≤ a) (hhigh : a < 0x78) :
    parseAddr (ascii "0x" ++ hex02 a) = some a := by
  have hall : ∀ a : Fin 0x78, 0x08 ≤ a.1 → parseAddr (ascii "0x" ++ hex02 a) = some a.1 := by
    decide +kernel
  exact hall ⟨a, hhigh⟩ hlow

/-- And a length that is printed in decimal. -/
theorem parseLen_text {len : Nat} (hpos : 1 ≤ len) (hmax : len ≤ 64) :
    (parseUint strtoul (itoa len) 64).filter (· ≠ 0) = some len := by
  have hall : ∀ len : Fin 65, 1 ≤ len.1 → (parseUint strtoul (itoa len.1) 64).filter (· ≠ 0) =
      some len.1 := by
    decide +kernel
  exact hall ⟨len, Nat.lt_succ_of_le hmax⟩ hpos

theorem parseUint_range {toul : List UInt8 → Nat × List UInt8} {s : List UInt8} {max v : Nat}
    (h : parseUint toul s max = some v) : v ≤ max := by
  unfold parseUint at h
  split at h
  · exact absurd h.symm (Option.some_ne_none _)
  · dsimp only at h
    split at h
    · exact absurd h.symm (Option.some_ne_none _)
    · next hgood =>
      obtain rfl := Option.some.inj h
      exact Nat.not_lt.mp (not_or.mp hgood).2

/-- An address that is accepted is a 7-bit address that is not reserved. -/
theorem parseAddr_range {s : List UInt8} {a : Nat} (h : parseAddr s = some a) :
    0x08 ≤ a ∧ a ≤ 0x77 := by
  unfold parseAddr at h
  dsimp only at h
  split at h
  · exact absurd h.symm (Option.some_ne_none _)
  · next addr haddr =>
    split at h
    · exact absurd h.symm (Option.some_ne_none _)
    · next hlow =>
      obtain rfl := Option.some.inj h
      exact ⟨Nat.not_lt.mp hlow, parseUint_range haddr⟩

/-! ## The scan -/

/-- Whether a device answers to the address. -/
def I2cBus.answers (dev : I2cBus) (bus a : Nat) : Bool :=
  match dev.read bus a 1 with
  | .ok _ => true
  | .error _ => false

/-- **A scan finds every device**, in the order of the addresses. -/
theorem i2cCtrlScan_finds (dev : I2cBus) {bus cap : Nat} (hbus : bus < i2cBusMax)
    (hcap : 0x70 ≤ cap) :
    i2cCtrlScan dev bus cap = (List.range' 0x08 0x70).filter (dev.answers bus) := by
  have hloop : ∀ (addrs found : List Nat), found.length + addrs.length ≤ cap →
      addrs.foldl (fun found a =>
        match dev.read bus a 1 with
        | .ok _ => if found.length < cap then found ++ [a] else found
        | .error _ => found) found = found ++ addrs.filter (dev.answers bus) := by
    intro addrs
    induction addrs with
    | nil => exact fun found _ => (List.append_nil found).symm
    | cons a addrs ih =>
      intro found hroom
      rw [List.length_cons] at hroom
      rw [List.foldl_cons, List.filter_cons, I2cBus.answers]
      cases dev.read bus a 1 with
      | error rc => exact ih found (by omega)
      | ok data =>
        dsimp only
        rw [if_pos (by omega), if_pos rfl,
          ih (found ++ [a]) (by rw [List.length_append, List.length_singleton]; omega),
          List.append_assoc]
        rfl
  rw [i2cCtrlScan, if_neg (not_or.mpr ⟨Nat.not_le.mpr hbus, by omega⟩)]
  exact hloop _ [] (by rw [List.length_range']; exact hcap)

/-! ## The calls that are made -/

/-- What `i2c` may ask of the bus. -/
def InRange : DriverCall → Prop
  | .i2cScan bus cap => bus < i2cBusMax ∧ 0x70 ≤ cap
  | .i2cRead bus addr len => bus < i2cBusMax ∧ (0x08 ≤ addr ∧ addr ≤ 0x77) ∧ 1 ≤ len ∧ len ≤ 64
  | .i2cWrite bus addr src =>
    bus < i2cBusMax ∧ (0x08 ≤ addr ∧ addr ≤ 0x77) ∧ 1 ≤ src.length ∧ src.length ≤ 64
  | _ => False

theorem i2cCtrl_isSome {s : DriverFlags} {bus len : Nat} {transfers : List SdkCall}
    (hbus : bus < i2cBusMax) (hlen : 1 ≤ len) : (i2cCtrl s bus len transfers).isSome = true := by
  rw [i2cCtrl, if_neg (not_or.mpr ⟨Nat.not_le.mpr hbus, by omega⟩)]
  rfl

theorem InRange.accepted {c : DriverCall} (h : InRange c) : c.accepted = true := by
  cases c with
  | i2cScan bus cap => exact i2cCtrl_isSome h.1 (by have := h.2; omega)
  | i2cRead bus addr len => exact i2cCtrl_isSome h.1 h.2.2.1
  | i2cWrite bus addr src => exact i2cCtrl_isSome h.1 h.2.2.1
  | _ => exact h.elim

theorem parseHexBytes_range {s bs : List UInt8} {max : Nat} (h : parseHexBytes s max = some bs) :
    1 ≤ bs.length ∧ bs.length ≤ max := by
  have hpairs : ∀ {s bs : List UInt8}, hexPairs s = some bs → bs.length = s.length / 2 := by
    intro s
    induction s using hexPairs.induct with
    | case1 hi lo s x y hx hy ih =>
      intro bs hb
      rw [hexPairs] at hb
      simp only [hx, hy] at hb
      obtain ⟨bs', hb', rfl⟩ := Option.map_eq_some_iff.mp hb
      rw [List.length_cons, ih hb']
      show _ = (s.length + 2) / 2
      omega
    | case2 hi lo s hno =>
      intro bs hb
      rw [hexPairs] at hb
      split at hb
      · next x y hx hy => exact absurd hy (hno x y hx)
      · exact absurd hb.symm (Option.some_ne_none _)
    | case3 s hshort =>
      intro bs hb
      cases s with
      | nil =>
        obtain rfl := Option.some.inj hb
        rfl
      | cons b s =>
        cases s with
        | nil =>
          obtain rfl := Option.some.inj hb
          simp
        | cons d s => exact absurd rfl (hshort b d s)
  unfold parseHexBytes at h
  split at h
  · exact absurd h.symm (Option.some_ne_none _)
  · next hgood =>
    split at h
    · exact absurd h.symm (Option.some_ne_none _)
    · rw [hpairs h]
      omega

theorem i2cScan_inRange {dev : I2cBus} {bus : Nat} {c : DriverCall} (hbus : bus < i2cBusMax)
    (h : (i2cScan dev bus).call = some c) : InRange c := by
  unfold i2cScan at h
  dsimp only at h
  split at h
  all_goals
    obtain rfl := Option.some.inj h
    exact ⟨hbus, by decide⟩

theorem i2cRead_inRange {dev : I2cBus} {bus : Nat} {addrArg lenArg : List UInt8} {c : DriverCall}
    (hbus : bus < i2cBusMax) (h : (i2cRead dev bus addrArg lenArg).call = some c) : InRange c := by
  unfold i2cRead at h
  split at h
  · exact absurd h.symm (Option.some_ne_none _)
  · next addr haddr =>
    split at h
    · exact absurd h.symm (Option.some_ne_none _)
    · next len hlen =>
      obtain ⟨hlen, hpos⟩ := Option.filter_eq_some_iff.mp hlen
      have hpos : 1 ≤ len := Nat.one_le_iff_ne_zero.mpr (of_decide_eq_true hpos)
      split at h
      all_goals
        obtain rfl := Option.some.inj h
        exact ⟨hbus, parseAddr_range haddr, hpos, parseUint_range hlen⟩

theorem i2cWrite_inRange {dev : I2cBus} {bus : Nat} {addrArg hexArg : List UInt8} {c : DriverCall}
    (hbus : bus < i2cBusMax) (h : (i2cWrite dev bus addrArg hexArg).call = some c) : InRange c := by
  unfold i2cWrite at h
  split at h
  · exact absurd h.symm (Option.some_ne_none _)
  · next addr haddr =>
    split at h
    · exact absurd h.symm (Option.some_ne_none _)
    · next buf hbuf =>
      split at h
      all_goals
        obtain rfl := Option.some.inj h
        exact ⟨hbus, parseAddr_range haddr, parseHexBytes_range hbuf⟩

/-- **Whatever is typed**, `i2c` asks for nothing that is out of range. -/
theorem handleI2c_inRange {dev : I2cBus} {argv : List (List UInt8)} {c : DriverCall}
    (h : (handleI2c dev argv).call = some c) : InRange c := by
  unfold handleI2c at h
  split at h
  · split at h
    · exact absurd h.symm (Option.some_ne_none _)
    · next bus hbus =>
      have hbus : bus < i2cBusMax := Nat.lt_succ_of_le (parseUint_range hbus)
      split at h
      · exact i2cScan_inRange hbus h
      · split at h
        · split at h
          · exact i2cRead_inRange hbus h
          · exact absurd h.symm (Option.some_ne_none _)
        · split at h
          · split at h
            · exact i2cWrite_inRange hbus h
            · exact absurd h.symm (Option.some_ne_none _)
          · exact absurd h.symm (Option.some_ne_none _)
  · exact absurd h.symm (Option.some_ne_none _)

theorem pwmSet_accepted {sysHz : UInt32} {pin freq duty : Nat} (hclock : sysHz ≠ 0)
    (hpin : pin ≤ 29) (hpos : freq ≠ 0) (hfreq : freq ≤ 1000000) (hduty : duty ≤ 100) :
    (DriverCall.pwmSet sysHz (UInt32.ofNat pin) (UInt32.ofNat freq) (UInt8.ofNat duty)).accepted =
      true := by
  have hgood : ¬ (UInt32.ofNat pin > 29 ∨ UInt8.ofNat duty > 100) := by
    rintro (h | h)
    · refine absurd (UInt32.lt_iff_toNat_lt.mp h) (Nat.not_lt.mpr ?_)
      exact (UInt32.toNat_ofNat_of_lt' (by show pin < 2 ^ 32; omega)).trans_le hpin
    · refine absurd (UInt8.lt_iff_toNat_lt.mp h) (Nat.not_lt.mpr ?_)
      exact (UInt8.toNat_ofNat_of_lt' (by show duty < 2 ^ 8; omega)).trans_le hduty
  have hne : UInt32.ofNat freq ≠ 0 := by
    intro hzero
    have hval := UInt32.toNat_ofNat_of_lt' (n := freq) (by show freq < 2 ^ 32; omega)
    rw [hzero] at hval
    exact hpos hval.symm
  unfold DriverCall.accepted DriverCall.run pwmCtrlSetCalls
  dsimp only
  rw [Option.isSome_map, Drivers.pwmCtrlSet, if_neg hgood, Drivers.computeDivWrap,
    if_neg hne, if_neg hclock]
  rfl

/-- And `pwm` starts and stops what can be started and stopped, as long as there is a clock. -/
theorem handlePwm_accepted {sysHz : UInt32} (hclock : sysHz ≠ 0) {argv : List (List UInt8)}
    {c : DriverCall} (h : (handlePwm sysHz argv).call = some c) : c.accepted = true := by
  unfold handlePwm at h
  split at h
  · split at h
    · exact absurd h.symm (Option.some_ne_none _)
    · next pin hpin =>
      have hpin : pin ≤ 29 := parseUint_range hpin
      split at h
      · obtain rfl := Option.some.inj h
        unfold DriverCall.accepted DriverCall.run
        dsimp only
        rw [pwmCtrlOff, if_neg (Nat.not_lt.mpr hpin)]
        rfl
      · split at h
        · exact absurd h.symm (Option.some_ne_none _)
        · split at h
          · exact absurd h.symm (Option.some_ne_none _)
          · next freq hfreq =>
            obtain ⟨hfreq, hpos⟩ := Option.filter_eq_some_iff.mp hfreq
            have hpos : freq ≠ 0 := of_decide_eq_true hpos
            have hfreq : freq ≤ 1000000 := parseUint_range hfreq
            split at h
            · exact absurd h.symm (Option.some_ne_none _)
            · next duty hduty =>
              have hduty : duty ≤ 100 := parseUint_range hduty
              dsimp only at h
              split at h
              all_goals
                obtain rfl := Option.some.inj h
                exact pwmSet_accepted hclock hpin hpos hfreq hduty
  · exact absurd h.symm (Option.some_ne_none _)

/-- And `adc` reads no other pin than those of the ADC. -/
theorem handleAdc_accepted {raw : UInt16} {argv : List (List UInt8)} {c : DriverCall}
    (h : (handleAdc raw argv).call = some c) : c.accepted = true := by
  unfold handleAdc at h
  split at h
  · split at h
    · exact absurd h.symm (Option.some_ne_none _)
    · next pin hpin =>
      obtain ⟨-, hvalid⟩ := Option.filter_eq_some_iff.mp hpin
      split at h
      · exact absurd h.symm (Option.some_ne_none _)
      · split at h
        all_goals
          obtain rfl := Option.some.inj h
          unfold DriverCall.accepted DriverCall.run
          dsimp only
          rw [adcCtrlRead, if_neg (not_not_intro hvalid)]
          rfl
  · exact absurd h.symm (Option.some_ne_none _)

/-! ## A session -/

/-- Two digits are never cut. -/
theorem cliPrintf_hex02 (b : UInt8) : cliPrintf (hex02 b.toNat) = hex02 b.toNat ∧
    cliPrintf (ascii " 0x" ++ hex02 b.toNat) = ascii " 0x" ++ hex02 b.toNat := by
  obtain ⟨hi, lo, he, -⟩ := hex02_byte b
  rw [he]
  exact ⟨rfl, rfl⟩

theorem i2cScan_out {dev : I2cBus} {bus : Nat} (hbus : bus < i2cBusMax) :
    (i2cScan dev bus).out =
      if (List.range' 0x08 0x70).filter (dev.answers bus) = [] then
      ascii "i2c: no devices found" ++ crlf
      else cliPrintf
        (ascii "i2c: " ++ itoa ((List.range' 0x08 0x70).filter (dev.answers bus)).length ++
          ascii " device(s):") ++
        ((List.range' 0x08 0x70).filter (dev.answers bus)).flatMap (fun a =>
          ascii " 0x" ++ hex02 a) ++ crlf := by
  unfold i2cScan
  rw [i2cCtrlScan_finds dev hbus (by decide)]
  dsimp only
  split
  · rfl
  · have hfits : ∀ a ∈ (List.range' 0x08 0x70).filter (dev.answers bus),
        cliPrintf (ascii " 0x" ++ hex02 a) = ascii " 0x" ++ hex02 a := by
      intro a ha
      have hrange := List.mem_range'_1.mp (List.mem_filter.mp ha).1
      have hbyte : (UInt8.ofNat a).toNat = a := UInt8.toNat_ofNat_of_lt' (by show a < 2 ^ 8; omega)
      have hcut := (cliPrintf_hex02 (UInt8.ofNat a)).2
      rwa [hbyte] at hcut
    dsimp only
    rw [List.flatMap_congr hfits]

/-- With an address and a length that are accepted the driver is called with them. -/
theorem i2cRead_call (dev : I2cBus) (bus : Nat) {addrArg lenArg : List UInt8} {addr len : Nat}
    (haddr : parseAddr addrArg = some addr)
    (hlen : (parseUint strtoul lenArg 64).filter (· ≠ 0) = some len) :
    (i2cRead dev bus addrArg lenArg).call = some (.i2cRead bus addr len) := by
  unfold i2cRead
  rw [haddr]
  dsimp only
  rw [hlen]
  dsimp only
  split <;> rfl

/-- So it is with the bytes to write. -/
theorem i2cWrite_call (dev : I2cBus) (bus : Nat) {addrArg hexArg data : List UInt8} {addr : Nat}
    (haddr : parseAddr addrArg = some addr) (hhex : parseHexBytes hexArg 64 = some data) :
    (i2cWrite dev bus addrArg hexArg).call = some (.i2cWrite bus addr data) := by
  unfold i2cWrite
  rw [haddr]
  dsimp only
  rw [hhex]
  dsimp only
  split <;> rfl

/-- What a read prints, and that `write` takes it. -/
theorem i2cRead_typed {dev : I2cBus} {bus addr : Nat} {addrArg lenArg : List UInt8}
    (hdoc : ∀ len data, dev.read bus addr len = .ok data → data.length = len)
    (haddr : parseAddr addrArg = some addr) (hok : (i2cRead dev bus addrArg lenArg).rc = cliOk) :
    ∃ data, (i2cRead dev bus addrArg lenArg).out = hexText data ++ crlf ∧
      dev.read bus addr data.length = .ok data ∧
      (i2cWrite dev bus addrArg (hexText data)).call = some (.i2cWrite bus addr data) := by
  have hfails : cliErrArg ≠ cliOk ∧ cliErrHardware ≠ cliOk := by decide
  unfold i2cRead at hok ⊢
  rw [haddr] at hok ⊢
  dsimp only at hok ⊢
  cases hlen : (parseUint strtoul lenArg 64).filter (· ≠ 0) with
  | none =>
    rw [hlen] at hok
    exact absurd hok hfails.1
  | some len =>
    rw [hlen] at hok
    obtain ⟨hmax, hpos⟩ := Option.filter_eq_some_iff.mp hlen
    have hmax : len ≤ 64 := parseUint_range hmax
    have hpos : len ≠ 0 := of_decide_eq_true hpos
    dsimp only at hok ⊢
    cases hread : i2cCtrlRead dev bus addr len with
    | error rc =>
      rw [hread] at hok
      exact absurd hok hfails.2
    | ok data =>
      unfold i2cCtrlRead at hread
      split at hread
      · exact absurd hread (by simp)
      · have hlength := hdoc len data hread
        have hne : data ≠ [] := by
          rintro rfl
          exact hpos hlength.symm
        refine ⟨data, ?_, hlength ▸ hread, ?_⟩
        · show data.flatMap (fun b => cliPrintf (hex02 b.toNat)) ++ crlf = _
          rw [List.flatMap_congr fun b _ => (cliPrintf_hex02 b).1]
          rfl
        · exact i2cWrite_call dev bus haddr (parseHexBytes_text hne (by rw [hlength]; exact hmax))

/-- **What `i2c` prints can be typed.** A scan prints every address that answers, each once and in
order. Typed behind `read` or `write`, with any length or bytes that these accept, it is the address
that the driver gets; and they accept every length from 1 to 64 in decimal, and as many bytes as
they are printed. What a read prints are the bytes that were read, and typed behind `write` they are
what is sent. And whatever is typed, no command has a driver refuse it: what they call is in
range. -/
theorem i2c_session {dev : I2cBus}
    (hdoc : ∀ bus addr len data, dev.read bus addr len = .ok data → data.length = len)
    {c busArg : List UInt8} {bus : Nat}
    (hbus : parseUint strtoul busArg (i2cBusMax - 1) = some bus) :
    ((handleI2c dev [c, busArg, ascii "scan"]).out =
      if (List.range' 0x08 0x70).filter (dev.answers bus) = [] then
      ascii "i2c: no devices found" ++ crlf
      else cliPrintf
        (ascii "i2c: " ++ itoa ((List.range' 0x08 0x70).filter (dev.answers bus)).length ++
          ascii " device(s):") ++
        ((List.range' 0x08 0x70).filter (dev.answers bus)).flatMap (fun a =>
          ascii " 0x" ++ hex02 a) ++ crlf) ∧
    (∀ a ∈ (List.range' 0x08 0x70).filter (dev.answers bus),
      let read lenArg := handleI2c dev [c, busArg, ascii "read", ascii "0x" ++ hex02 a, lenArg]
      let write hexArg := handleI2c dev [c, busArg, ascii "write", ascii "0x" ++ hex02 a, hexArg]
      (∀ lenArg len, (parseUint strtoul lenArg 64).filter (· ≠ 0) = some len →
        (read lenArg).call = some (.i2cRead bus a len)) ∧
      (∀ len : Nat, 1 ≤ len → len ≤ 64 → (read (itoa len)).call = some (.i2cRead bus a len)) ∧
      (∀ hexArg data, parseHexBytes hexArg 64 = some data →
        (write hexArg).call = some (.i2cWrite bus a data)) ∧
      (∀ data, data ≠ [] → data.length ≤ 64 →
        (write (hexText data)).call = some (.i2cWrite bus a data)) ∧
      ∀ lenArg, (read lenArg).rc = cliOk → ∃ data, (read lenArg).out = hexText data ++ crlf ∧
        dev.read bus a data.length = .ok data ∧
        (write (hexText data)).call = some (.i2cWrite bus a data)) ∧
    (∀ argv call, (handleI2c dev argv).call = some call → InRange call ∧ call.accepted = true) ∧
    (∀ sysHz argv call, sysHz ≠ 0 → (handlePwm sysHz argv).call = some call →
      call.accepted = true) ∧
    ∀ raw argv call, (handleAdc raw argv).call = some call → call.accepted = true := by
  have hrange : bus < i2cBusMax := Nat.lt_succ_of_le (parseUint_range hbus)
  have hscan : handleI2c dev [c, busArg, ascii "scan"] = i2cScan dev bus := by
    unfold handleI2c
    simp only [hbus, if_true]
  have hread : ∀ addrArg lenArg, handleI2c dev [c, busArg, ascii "read", addrArg, lenArg] =
      i2cRead dev bus addrArg lenArg := by
    intro addrArg lenArg
    unfold handleI2c
    simp only [hbus]
    rw [if_neg (by decide), if_pos trivial]
  have hwrite : ∀ addrArg hexArg, handleI2c dev [c, busArg, ascii "write", addrArg, hexArg] =
      i2cWrite dev bus addrArg hexArg := by
    intro addrArg hexArg
    unfold handleI2c
    simp only [hbus]
    rw [if_neg (by decide), if_neg (by decide), if_pos trivial]
  refine ⟨?_, fun a ha => ?_, fun argv call hcall => ?_, fun sysHz argv call hclock hcall => ?_,
    fun raw argv call hcall => ?_⟩
  · rw [hscan]
    exact i2cScan_out hrange
  · have hmem := List.mem_range'_1.mp (List.mem_filter.mp ha).1
    have haddr := parseAddr_text hmem.1 hmem.2
    simp only [hread, hwrite]
    refine ⟨fun lenArg len hlen => i2cRead_call dev bus haddr hlen,
      fun len hpos hmax => i2cRead_call dev bus haddr (parseLen_text hpos hmax),
      fun hexArg data hhex => i2cWrite_call dev bus haddr hhex,
      fun data hne hmax => i2cWrite_call dev bus haddr (parseHexBytes_text hne hmax),
      fun lenArg hok => ?_⟩
    exact i2cRead_typed (hdoc bus a) haddr hok
  · exact ⟨handleI2c_inRange hcall, (handleI2c_inRange hcall).accepted⟩
  · exact handlePwm_accepted hclock hcall
  · exact handleAdc_accepted hcall

/-- A bus with a clock at 0x68 that returns the same byte again and again. -/
def clockBus : I2cBus where
  read := fun _ a len => if a = 0x68 then .ok (List.replicate len 0x5A) else .error (-1)
  write := fun _ _ _ => .ok ()

/-- It is found, and what is read of it can be written to it. -/
theorem clockBus_session :
    (handleI2c clockBus [ascii "i2c", ascii "0", ascii "scan"]).out =
      ascii "i2c: 1 device(s): 0x68" ++ crlf ∧
    ∃ data, (handleI2c clockBus [ascii "i2c", ascii "0", ascii "read", ascii "0x" ++ hex02 0x68,
      ascii "2"]).out =
        hexText data ++ crlf ∧
      (handleI2c clockBus [ascii "i2c", ascii "0", ascii "write", ascii "0x" ++ hex02 0x68,
        hexText data]).call =
        some (.i2cWrite 0 0x68 data) := by
  have hdoc : ∀ bus addr len data, clockBus.read bus addr len = .ok data → data.length = len := by
    intro bus addr len data hread
    unfold clockBus at hread
    dsimp only at hread
    split at hread
    · rw [← Except.ok.inj hread, List.length_replicate]
    · exact absurd hread (by simp)
  obtain ⟨hscan, htyped, -⟩ :=
    @i2c_session clockBus hdoc (ascii "i2c") (ascii "0") 0 (by decide +kernel)
  refine ⟨hscan.trans (by decide +kernel), ?_⟩
  obtain ⟨-, -, -, -, hread⟩ := htyped 0x68 (by decide +kernel)
  obtain ⟨data, hout, -, hcall⟩ := hread (ascii "2") (by decide +kernel)
  exact ⟨data, hout, hcall⟩

end PicoBLE.Cli
