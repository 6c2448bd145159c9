import PicoBLE.Cli.Arguments
import PicoBLE.Cli.LineStatus
import PicoBLE.Network.Wifi
import PicoBLE.Storage.Credentials

/-!
# `cli/commands/cmd_wifi.c`

`wifi connect` joins with the two strings it was given, and then stores them
for the next boot. On their way to `config_save_wifi` they are cut off at 32
and 63 characters, so it never sees one that is too long. And it finds them
behind pointers into `g_expand_buf`, after a join of up to 15 seconds during
which other lines are expanded there.
-/

namespace PicoBLE.Cli

open CString (ascii crlf itoa strncpy ofBuffer)
open NorFlash (Image read)
open PicoBLE.Network
open PicoBLE.Ota (Flash flashSectorSize)
open PicoBLE.Storage

/-! ## The command -/

def persistWarning : List UInt8 := ascii "wifi: warning: failed to persist credentials" ++ crlf

/-- What the handler leaves, what it returns, and what it prints, a piece at a time. -/
structure WifiRan where
  wifi : Wifi
  flash : Flash
  rc : Int
  out : List (List UInt8)

/-- A buffer of zeros, with `strncpy` of `n` characters into it. -/
def copied (n : Nat) (s : List UInt8) : Block (n + 1) :=
  ⟨strncpy n s ++ [0], by rw [List.length_append, CString.strncpy_length]; rfl⟩

/-- `show_status`. -/
def showStatus (radio : Radio) (w : Wifi) (f : Flash) : WifiRan :=
  let up := wifiIsConnected (radio.linkUp 0) w
  let state :=
    cliPrintf (ascii "wifi: " ++ ascii (if up then "connected" else "disconnected") ++ crlf)
  let ip := cliPrintf (ascii "  ip : " ++ wifiFormatIp (radio.linkUp 1) radio.netif w ++ crlf)
  let saved :=
    match configLoadWifi f.image with
    | some c => cliPrintf (ascii "  saved ssid : " ++ ofBuffer c.ssid.1 ++ crlf)
    | none => ascii "  saved ssid : (none)" ++ crlf
  { wifi := w, flash := f, rc := cliOk, out := (if up then [state, ip] else [state]) ++ [saved] }

/-- `do_connect`. The two arguments are pointers into `g_expand_buf`. They are read when the command
is called, in `fw`, and again when the join is over, in `later`: the other shells have run
meanwhile. -/
def doConnect (ssid : Arg) (psk : Option Arg) (radio : Radio) (ok : Nat → Bool) (w : Wifi)
    (fw later : Fw) : WifiRan :=
  let joining := cliPrintf (ascii "wifi: joining " ++ fw.str ssid ++ ascii "..." ++ crlf)
  let j := wifiConnect radio.join (some (fw.str ssid)) (psk.map fw.str) 15000 w
  if j.2 ≠ 0 then
    let failed := cliPrintf (ascii "wifi: connect failed (rc=" ++ itoa j.2 ++ ascii ")" ++ crlf)
    { wifi := j.1, flash := later.flash, rc := cliErrHardware, out := [joining, failed] }
  else
    let ip := wifiFormatIp (radio.linkUp 0) radio.netif j.1
    let connected := cliPrintf (ascii "wifi: connected, ip=" ++ ip ++ crlf)
    let c : WifiCreds :=
      { ssid := copied configSsidMaxlen (later.str ssid)
        psk := copied configPskMaxlen ((psk.map later.str).getD []) }
    let s := configSaveWifi ok (some c) later.flash
    { wifi := j.1, flash := s.1, rc := cliOk,
      out := [joining, connected] ++ if ¬ s.2 then [persistWarning] else [] }

/-- `handle`. Only `wifi connect` waits. -/
def handleWifi (argv : List Arg) (radio : Radio) (ok : Nat → Bool) (w : Wifi) (fw later : Fw) :
    WifiRan :=
  match argv with
  | _ :: sub :: rest =>
    if fw.str sub = ascii "status" then showStatus radio w fw.flash
    else if fw.str sub = ascii "connect" then
      match rest with
      | ssid :: psk :: _ => doConnect ssid (some psk) radio ok w fw later
      | _ => { wifi := w, flash := fw.flash, rc := cliErrUsage, out := [] }
    else if fw.str sub = ascii "forget" then
      match configClearWifi (ok 0) fw.flash with
      | (f, true) =>
        { wifi := w, flash := f, rc := cliOk, out := [ascii "wifi: credentials cleared" ++ crlf] }
      | (f, false) =>
        { wifi := w, flash := f, rc := cliErrHardware, out := [ascii "wifi: clear failed" ++ crlf] }
    else
      let unknown := cliPrintf (ascii "wifi: unknown subcommand: " ++ fw.str sub ++ crlf)
      { wifi := w, flash := fw.flash, rc := cliErrUsage, out := [unknown] }
  | _ => { wifi := w, flash := fw.flash, rc := cliErrUsage, out := [] }

/-! ## The wait -/

/-- A command that waits for the radio, from its call to the end of the join. The loop is pumped
meanwhile, so packets arrive and other lines run, up to where the command is innermost again. -/
structure Joining where
  shell : Shell
  argv : List Arg
  below : List Frame
  events : List Event
  call : Machine
  joined : Machine
  called : call.stack = .leaf shell argv :: below
  meanwhile : machine.Runs (Above below) call events joined
  back : joined.stack = .leaf shell argv :: below

namespace Joining

/-- The string that the argument was at the call. -/
def given (j : Joining) (a : Arg) : List UInt8 := j.call.fw.str a

/-- The string that stands in its place when the join is over. -/
def left (j : Joining) (a : Arg) : List UInt8 := j.joined.fw.str a

/-- Nothing is written to the argument meanwhile. -/
def Untouched (j : Joining) (a : Arg) : Prop :=
  machine.Runs (fun m e => ArgSafe m e a) j.call j.events j.joined

/-- What the handler does. -/
def ran (j : Joining) (radio : Radio) (ok : Nat → Bool) (w : Wifi) : WifiRan :=
  handleWifi j.argv radio ok w j.call.fw j.joined.fw

theorem Untouched.left_eq {j : Joining} {a : Arg} (h : j.Untouched a) : j.left a = j.given a :=
  runs_str h

end Joining

/-! ## The next boot -/

/-- `wifi_autoconnect_expired` of `main.c`. `WIFI_SSID` and `WIFI_PASSWORD` may be given to the
build. -/
def wifiAutoconnectExpired (built : Option (List UInt8 × List UInt8)) (join : Join → Int)
    (f : Image) (w : Wifi) : Wifi :=
  let creds := (configLoadWifi f).or <|
    built.map fun b => { ssid := copied configSsidMaxlen b.1, psk := copied configPskMaxlen b.2 }
  match creds with
  | none => w
  | some c =>
    (wifiConnect join (some (ofBuffer c.ssid.1)) (some (ofBuffer c.psk.1)) 15000 (wifiInit w)).1

/-- The loader gives these two strings, and the next boot joins with them. -/
structure Remembered (ssid psk : List UInt8) (f : Image) : Prop where
  load : ∀ out, ∃ got, configLoadWifiOut (some out) f = (some got, true) ∧
    ofBuffer got.ssid.1 = ssid ∧ ofBuffer got.psk.1 = psk
  boot : ∀ built join w, (wifiAutoconnectExpired built join f w).joins =
    { ssid, psk, timeoutMs := 15000 } :: w.joins

/-- What is loaded is what is remembered. -/
theorem remembered_iff {ssid psk : List UInt8} {f : Image} {c : WifiCreds}
    (hload : configLoadWifi f = some c) (hne : ssid ≠ []) : Remembered ssid psk f ↔
    ofBuffer c.ssid.1 = ssid ∧ ofBuffer c.psk.1 = psk := by
  have hout := configLoadWifiOut_some hload
  refine ⟨fun h => ?_, fun ⟨hssid, hpsk⟩ => ⟨fun out => ⟨c, hout out, hssid, hpsk⟩,
    fun built join w => ?_⟩⟩
  · obtain ⟨got, he, hgot⟩ := h.load c
    have hc : some got = some c := congrArg Prod.fst (he.symm.trans (hout c))
    rwa [Option.some.inj hc] at hgot
  · have hboot : wifiAutoconnectExpired built join f w =
        (wifiConnect join (some (ofBuffer c.ssid.1)) (some (ofBuffer c.psk.1)) 15000
            (wifiInit w)).1 := by
      unfold wifiAutoconnectExpired
      rw [hload]
      rfl
    rw [hboot, hssid, hpsk, wifiConnect_joins _ hne, wifiInit_joins]

/-! ## What is stored -/

theorem ofBuffer_copied (n : Nat) {s : List UInt8} (hnul : 0 ∉ s) :
    ofBuffer (copied n s).1 = s.take n :=
  CString.ofBuffer_strncpy n hnul

/-- **A join that raises no warning** has stored what it found behind its pointers at the end, as
far as the copies kept it. -/
theorem doConnect_quiet {ssid psk : Arg} {radio : Radio} {ok : Nat → Bool}
    {w : Wifi} {fw later : Fw}
    (hjoin : (wifiConnect radio.join (some (fw.str ssid)) (some (fw.str psk)) 15000 w).2 = 0)
    (hquiet : persistWarning ∉ (doConnect ssid (some psk) radio ok w fw later).out) {g : Image}
    (hsame : read configSectorOffset flashSectorSize g =
      read configSectorOffset flashSectorSize (doConnect ssid (some psk) radio ok w fw
        later).flash.image) :
    configLoadWifi g = some { ssid := zeroPadded 33 ((later.str ssid).take configSsidMaxlen)
                              psk := zeroPadded 64 ((later.str psk).take configPskMaxlen) } := by
  unfold doConnect at hquiet hsame
  dsimp only [Option.map_some, Option.getD_some] at hquiet hsame
  rw [if_neg (not_not_intro hjoin)] at hquiet hsame
  have hsaved : (configSaveWifi ok (some { ssid := copied configSsidMaxlen (later.str ssid)
                                           psk := copied configPskMaxlen (later.str psk) })
                                             later.flash).2
      = true := by
    by_contra hno
    refine hquiet (List.mem_append_right _ ?_)
    rw [if_pos hno]
    exact List.mem_singleton_self persistWarning
  have hload := configLoadWifi_saved hsaved hsame
  have hcopied : ∀ n a, ofBuffer (copied n (later.str a)).1 = (later.str a).take n :=
    fun n a => ofBuffer_copied n (CString.ofBuffer_nul _)
  dsimp only at hload
  rwa [hcopied, hcopied] at hload

/-- **When the next boot joins with what has worked**: when the strings behind the two pointers are
the same at the end of the join, and are not cut off on their way to the flash. So while nothing
is written to them, it is a matter of their lengths. The join itself takes strings of any length. -/
theorem persists_exact {j : Joining} {prog sub ssid psk : Arg} {rest : List Arg} {radio : Radio}
    {ok : Nat → Bool} {w : Wifi} (hargv : j.argv = prog :: sub :: ssid :: psk :: rest)
    (hsub : j.given sub = ascii "connect")
    (hjoin : (wifiConnect radio.join (some (j.given ssid)) (some (j.given psk)) 15000 w).2 = 0)
    (hquiet : persistWarning ∉ (j.ran radio ok w).out) {g : Image}
    (hsame : read configSectorOffset flashSectorSize g =
      read configSectorOffset flashSectorSize (j.ran radio ok w).flash.image) :
    (Remembered (j.given ssid) (j.given psk) g ↔
      (j.left ssid).take configSsidMaxlen = j.given ssid ∧
      (j.left psk).take configPskMaxlen = j.given psk) ∧
    (j.Untouched ssid → j.Untouched psk → (Remembered (j.given ssid) (j.given psk) g ↔
      (j.given ssid).length ≤ configSsidMaxlen ∧ (j.given psk).length ≤ configPskMaxlen)) := by
  have hconnect : j.ran radio ok w = doConnect ssid (some psk) radio ok w j.call.fw
      j.joined.fw := by
    have hstatus : j.call.fw.str sub ≠ ascii "status" :=
      fun h => absurd (hsub.symm.trans h) (by decide)
    unfold Joining.ran handleWifi
    rw [hargv]
    exact (if_neg hstatus).trans (if_pos hsub)
  rw [hconnect] at hquiet hsame
  have hload := doConnect_quiet hjoin hquiet hsame
  have hcut : ∀ {m n : Nat} (a : Arg), m < n →
      ofBuffer (zeroPadded n ((j.left a).take m)).1 = (j.left a).take m := by
    intro m n a hlt
    refine (holds_zeroPadded (fun h => CString.ofBuffer_nul _ (List.mem_of_mem_take h)) ?_).ofBuffer
    exact Nat.lt_of_le_of_lt (List.length_take_le m _) hlt
  have hexact : Remembered (j.given ssid) (j.given psk) g ↔
      (j.left ssid).take configSsidMaxlen = j.given ssid ∧
          (j.left psk).take configPskMaxlen = j.given psk := by
    rw [remembered_iff hload (wifiConnect_ssid hjoin)]
    exact Iff.of_eq (congrArg₂ (fun s p => s = j.given ssid ∧ p = j.given psk)
      (hcut ssid (by decide)) (hcut psk (by decide)))
  refine ⟨hexact, fun hssid hpsk => ?_⟩
  rw [hexact, hssid.left_eq, hpsk.left_eq, List.take_eq_self_iff, List.take_eq_self_iff]

/-! ## Two passphrases -/

/-- A radio that joins whatever it is asked for. -/
def openRadio : Radio where
  join := fun _ => 0
  linkUp := fun _ => true
  netif := none

/-- The call that the machine waits in, if the events lead from there to the end of the join. -/
def joining (m : Machine) (events : List Event) : Option Joining :=
  match hcall : m.stack with
  | .leaf shell argv :: below =>
    match hrun : LTS.exec Machine.step (Above below) m events with
    | some m' =>
      if hback : m'.stack = .leaf shell argv :: below then
        some { shell, argv, below, events, call := m, joined := m', called := hcall
               meanwhile := LTS.runs_exec hrun, back := hback }
      else none
    | none => none
  | _ => none

/-- `wifi connect attic` with a passphrase, over BLE on a board that has just booted. -/
def connecting (psk : List UInt8) (meanwhile : List Event) : Option Joining :=
  (LTS.exec Machine.step (fun _ _ => True) (Machine.boot erased)
    ([.linkUp, .subscribe, .rx (ascii "wifi connect attic " ++ psk)] ++
      List.replicate (psk.length + 22) (.tick calm))).bind fun m => joining m meanwhile

/-- A binding that echoes. -/
def echoed (words : String) : List Event :=
  [.fire (ascii "echo " ++ ascii words), .tick calm, .leafDone cliOk, .tick calm]

def atticArg : Arg := { ptr := 13, text := ascii "attic" }

def pskArg (psk : List UInt8) : Arg := { ptr := 19, text := psk }

def atticArgv (psk : List UInt8) : List Arg :=
  [{ ptr := 0, text := ascii "wifi" }, { ptr := 5, text := ascii "connect" }, atticArg, pskArg psk]

/-- The radio has joined, all has been written, and nothing was amiss. -/
def Joining.Quiet (j : Joining) : Prop :=
  persistWarning ∉ (j.ran openRadio (fun _ => true) .zero).out

instance (j : Joining) : Decidable j.Quiet := inferInstanceAs (Decidable (_ ∉ _))

/-- What the flash holds then. -/
def Joining.stored (j : Joining) : Image := (j.ran openRadio (fun _ => true) .zero).flash.image

/-- A passphrase of 9 characters is remembered. During the join a binding echoes `on`, and that
ends in front of it. -/
theorem passphrase_remembered : ∃ j, connecting (ascii "sunflower") (echoed "on") = some j ∧
    Remembered (ascii "attic") (ascii "sunflower") j.stored := by
  have hrun : (connecting (ascii "sunflower") (echoed "on")).map (fun j => decide
      ((j.argv = atticArgv (ascii "sunflower") ∧
        j.given { ptr := 5, text := ascii "connect" } = ascii "connect") ∧
        (j.given atticArg = ascii "attic" ∧
          j.given (pskArg (ascii "sunflower")) = ascii "sunflower") ∧
        (j.left atticArg = ascii "attic" ∧
          j.left (pskArg (ascii "sunflower")) = ascii "sunflower") ∧ j.Quiet))
      = some true := by decide +kernel
  obtain ⟨j, hj, hview⟩ := Option.map_eq_some_iff.mp hrun
  obtain ⟨⟨hargv, hsub⟩, ⟨hssid, hpsk⟩, ⟨hssid', hpsk'⟩, hquiet⟩ := of_decide_eq_true hview
  refine ⟨j, hj, ?_⟩
  have hkept := persists_exact hargv hsub (by rw [hssid, hpsk]; rfl) hquiet (g := j.stored) rfl
  rw [hssid, hpsk, hssid', hpsk'] at hkept
  exact hkept.1.mpr (by decide)

/-- A raw key of 64 digits. -/
def rawKey : List UInt8 := List.replicate 64 0x61

/-- The radio takes the key and nothing is amiss; and another key is loaded, and the next boot tries
that. -/
theorem rawKey_cutOff : ∃ j, connecting rawKey [] = some j ∧
    (j.given atticArg = ascii "attic" ∧ j.given (pskArg rawKey) = rawKey) ∧
    (wifiConnect openRadio.join (some (ascii "attic")) (some rawKey) 15000 .zero).2 = 0 ∧ j.Quiet ∧
    (configLoadWifi j.stored).map (fun c => ofBuffer c.psk.1) = some (List.replicate 63 0x61) ∧
    (wifiAutoconnectExpired none openRadio.join j.stored .zero).joins =
      [{ ssid := ascii "attic", psk := List.replicate 63 0x61, timeoutMs := 15000 }] := by
  have hrun : (connecting rawKey []).map (fun j => decide
      ((j.given atticArg = ascii "attic" ∧ j.given (pskArg rawKey) = rawKey) ∧
        (wifiConnect openRadio.join (some (ascii "attic")) (some rawKey) 15000 .zero).2 = 0 ∧
        j.Quiet ∧
        (configLoadWifi j.stored).map (fun c => ofBuffer c.psk.1) = some (List.replicate 63 0x61) ∧
        (wifiAutoconnectExpired none openRadio.join j.stored .zero).joins =
          [{ ssid := ascii "attic", psk := List.replicate 63 0x61, timeoutMs := 15000 }]))
      = some true := by decide +kernel
  obtain ⟨j, hj, hview⟩ := Option.map_eq_some_iff.mp hrun
  exact ⟨j, hj, of_decide_eq_true hview⟩

/-- A binding that echoes three words overwrites both, and what stands there then is stored. -/
example : (connecting (ascii "sunflower") (echoed "attic lamps off")).map (fun j =>
      (decide j.Quiet, (configLoadWifi j.stored).map fun c =>
        (ofBuffer c.ssid.1, ofBuffer c.psk.1)))
    = some (true, some (ascii "mps", ascii "f")) := by decide +kernel

end PicoBLE.Cli
