import PicoBLE.Lib.Bytes
import PicoBLE.Lib.CString

/-!
# `network/wifi.c`

The chip is driven through a handful of driver calls. What the driver answers
is an input, and what it is asked to join is recorded.
-/

namespace PicoBLE.Network

open CString (ascii itoa)

/-- A call of `cyw43_arch_wifi_connect_timeout_ms`, always with `CYW43_AUTH_WPA2_AES_PSK`. -/
structure Join where
  ssid : List UInt8
  psk : List UInt8
  timeoutMs : Nat
deriving DecidableEq

/-- What the driver answers. -/
structure Radio where
  /-- `cyw43_arch_wifi_connect_timeout_ms`. -/
  join : Join → Int
  /-- `cyw43_tcpip_link_status` is `CYW43_LINK_UP`, each time it is asked. -/
  linkUp : Nat → Bool
  /-- The address of `netif_default`, unless that is NULL. -/
  netif : Option UInt32

/-- The station. -/
structure Wifi where
  /-- `g_sta_enabled`. -/
  staEnabled : Bool
  /-- The chip dozes between beacons. -/
  powerSave : Bool
  /-- What the driver has been asked to join, newest first. -/
  joins : List Join

/-- After a reset. -/
def Wifi.zero : Wifi := { staEnabled := false, powerSave := true, joins := [] }

/-- `wifi_init`. -/
def wifiInit (w : Wifi) : Wifi := if w.staEnabled then w else { w with staEnabled := true }

@[simp] theorem wifiInit_joins (w : Wifi) : (wifiInit w).joins = w.joins := by
  unfold wifiInit
  split <;> rfl

/-- `wifi_connect`. -/
def wifiConnect (join : Join → Int) (ssid psk : Option (List UInt8)) (timeoutMs : Nat) (w : Wifi) :
    Wifi × Int :=
  match ssid with
  | none => (w, -1)
  | some [] => (w, -1)
  | some (c :: cs) =>
    let w := if ¬ w.staEnabled then wifiInit w else w
    let j : Join := { ssid := c :: cs, psk := psk.getD [], timeoutMs }
    let w := { w with joins := j :: w.joins }
    let rc := join j
    if rc ≠ 0 then (w, rc) else ({ w with powerSave := false }, 0)

/-- A name that is there is what the driver is asked for, with the passphrase. -/
theorem wifiConnect_joins (join : Join → Int) {ssid : List UInt8} (hne : ssid ≠ [])
    (psk : List UInt8) (timeoutMs : Nat) (w : Wifi) :
    (wifiConnect join (some ssid) (some psk) timeoutMs w).1.joins =
      { ssid, psk, timeoutMs } :: w.joins := by
  obtain ⟨c, cs, rfl⟩ := List.exists_cons_of_ne_nil hne
  have hinit : (if ¬ w.staEnabled then wifiInit w else w).joins = w.joins := by
    split
    · exact wifiInit_joins w
    · rfl
  rw [wifiConnect]
  dsimp only
  split <;> exact congrArg _ hinit

/-- Without a name there is nothing to join. -/
theorem wifiConnect_ssid {join : Join → Int} {ssid : List UInt8} {psk : Option (List UInt8)}
    {timeoutMs : Nat} {w : Wifi} (h : (wifiConnect join (some ssid) psk timeoutMs w).2 = 0) :
    ssid ≠ [] := by
  rintro rfl
  exact absurd (show (-1 : Int) = 0 from h) (by decide)

/-- `wifi_is_connected`, with the driver's answer. -/
def wifiIsConnected (linkUp : Bool) (w : Wifi) : Bool := w.staEnabled && linkUp

/-- `wifi_get_ip_be`. -/
def wifiGetIpBe (linkUp : Bool) (netif : Option UInt32) (w : Wifi) : UInt32 :=
  if wifiIsConnected linkUp w then netif.getD 0 else 0

/-- `wifi_format_ip`. The longest address fits the 24 bytes that its callers give it. -/
def wifiFormatIp (linkUp : Bool) (netif : Option UInt32) (w : Wifi) : List UInt8 :=
  let be := wifiGetIpBe linkUp netif w
  if be = 0 then ascii "0.0.0.0"
  else (((Bytes.leBytes 4 be.toNat).map fun o => itoa o.toNat).intersperse (ascii ".")).flatten

end PicoBLE.Network
