import PicoBLE.Cli.Commands
import PicoBLE.Lib.LTS
import PicoBLE.System.Bindings

/-!
# Line assembly, and the machine

`cli_feed` turns bytes into lines and hands each line to the capture callback or
to `cli_dispatch_line`. A tick of the machine runs the innermost frame up to
the next call or return. While the innermost frame is a command that waits, or
there is none, the world outside can do something: a packet or a byte arrives,
a central connects, subscribes or goes, a binding fires, `http_get` delivers to
`script fetch`, be it innermost or under another command that waits, or a
command at last returns.

Every order of these is a run of the machine. What `http_get` delivers, what a
command returns and whether a flash operation succeeds are inputs.
-/

namespace PicoBLE.Cli

open PicoBLE.Ota (Flash)
open PicoBLE.Storage (scriptStorageOffset scriptSlotCount scriptSlotSize)
open PicoBLE.System (bindTargetMax)

/-! ## Line assembly -/

/-- `line[line_len] = '\0'`. -/
def CliCtx.terminate (c : CliCtx) : CliCtx := { c with line := c.line.set c.lineLen 0 }

/-- What `end_of_line` passes on: the string in the buffer, unless it is empty and nobody
captures. -/
def CliCtx.handed (c : CliCtx) : Option (List UInt8) :=
  if c.capturing ∨ 0 < c.lineLen.1 then some (c.terminate.line.str 0) else none

/-- `end_of_line`, up to the return of what it calls. -/
def endOfLine (t : Tick) (sh : Shell) (fw : Fw) : Ran :=
  let c := (fw.ctx sh).terminate
  let fw := fw.setCtx sh c
  if c.capturing then (captureLineCb t sh (c.line.str 0) fw).goto (.lineDone sh) cliOk
  else if 0 < c.lineLen.1 then
    let r := cliDispatchLine sh c.line fw
    -- the tokenizer has worked in the line buffer
    { fw := r.fw.setCtx sh { c with line := tokenized c.line }, push := r.push ++ [.lineDone sh],
      rc := r.rc }
  else fw.goto (.lineDone sh) cliOk

/-- A character other than a line end. -/
def typeChar (b : UInt8) (c : CliCtx) : CliCtx :=
  let c := { c with lastWasCr := false }
  if b = 0x08 ∨ b = 0x7F then
    { c with lineLen := ⟨c.lineLen.1 - 1, Nat.lt_of_le_of_lt (Nat.sub_le _ _) c.lineLen.2⟩ }
  else if b < 0x20 then c
  else if h : c.lineLen.1 < cliLineMax - 1 then
    { c with line := c.line.set c.lineLen b, lineLen := ⟨c.lineLen.1 + 1, Nat.add_lt_of_lt_sub h⟩ }
  else c

/-- One turn of the loop of `cli_feed`. -/
def feedByte (t : Tick) (sh : Shell) (b : UInt8) (fw : Fw) : Ran :=
  let c := fw.ctx sh
  if b = 10 then
    if c.lastWasCr then (fw.setCtx sh { c with lastWasCr := false }).ret cliOk
    else endOfLine t sh fw
  else if b = 13 then endOfLine t sh (fw.setCtx sh { c with lastWasCr := true })
  else (fw.setCtx sh (typeChar b c)).ret cliOk

/-- `cli_feed` and `cli_feed_line`. -/
def cliFeed (t : Tick) (sh : Shell) (data : List UInt8) (packet : Bool) (fw : Fw) : Ran :=
  match data with
  | b :: rest =>
    let r := feedByte t sh b fw
    { r with push := r.push ++ [.feed sh rest packet] }
  | [] =>
    if packet ∧ 0 < (fw.ctx sh).lineLen.1 then fw.goto (.feed sh [10] false) cliOk else fw.ret cliOk

/-! ## One tick -/

/-- Run the innermost frame. The frames that wait have to be woken. -/
def runFrame (t : Tick) (f : Frame) (fw : Fw) (rc : Int) : Option Ran :=
  match f with
  | .feed sh data packet => some (cliFeed t sh data packet fw)
  | .lineDone sh => some ((fw.setCtx sh (fw.ctx sh).clearLine).ret rc)
  | .dispatch sh argv => some (cliDispatchArgv t sh argv fw)
  | .handled => some ((fw.setStatus rc).ret rc)
  | .repeatNext sh sub i n => some (repeatNext sh sub i n fw)
  | .repeatCheck sh sub i n => some (repeatCheck sh sub i n rc fw)
  | .whileNext sh cond body i => some (whileNext sh cond body i fw)
  | .whileCond sh cond body i => some (whileCond sh cond body i rc fw)
  | .whileBody sh cond body i => some (whileBody sh cond body i rc fw)
  | .ifCond sh thenArgv elseArgv => some (ifCond sh thenArgv elseArgv rc fw)
  | .runNext sh script off => some (runNext sh script off fw)
  | .fetch _ => none
  | .leaf _ _ => none

/-- The frame waits, and pumps `cyw43_arch_poll` meanwhile. -/
def Frame.waits : Frame → Bool
  | .fetch _ => true
  | .leaf _ _ => true
  | _ => false

/-! ## The machine -/

/-- What happens next. -/
inductive Event where
  /-- The firmware runs on. -/
  | tick (t : Tick)
  /-- A central connects. -/
  | linkUp
  /-- It enables notifications: `on_ble_connect`. -/
  | subscribe
  /-- It is gone: `on_ble_disconnect`. -/
  | linkDown
  /-- It writes a packet: `on_ble_rx`. -/
  | rx (data : List UInt8)
  /-- `stdio_poll` reads a byte. -/
  | usb (b : UInt8)
  /-- `bindings_dispatch_pending` runs a binding with this target. -/
  | fire (target : List UInt8)
  /-- `http_get` delivers a piece of the body to `fetch_chunk`. -/
  | chunk (data : List UInt8)
  /-- The same, while another command has come in on top of `script fetch` and waits. -/
  | chunkBelow (data : List UInt8)
  /-- `http_get` returns to `cmd_fetch`. -/
  | httpDone (t : Tick) (ok : Bool)
  /-- The waiting command calls `http_get` for itself. -/
  | httpGet
  /-- The waiting command returns. -/
  | leafDone (rc : Int)
  /-- Something else writes to the flash, outside the script slots. -/
  | elsewhere (flash : Flash)

/-- Nothing is in progress, or what is waits. -/
def Machine.polls (m : Machine) : Bool := m.stack.head?.all Frame.waits

/-- Put what ran in place of the innermost frame. -/
def Ran.resume (r : Ran) (below : List Frame) : Machine :=
  { fw := r.fw, stack := r.push ++ below, rc := r.rc }

/-- The script slots read the same. -/
def SameScripts (f g : Flash) : Prop :=
  ∀ a < scriptStorageOffset + scriptSlotCount * scriptSlotSize, scriptStorageOffset ≤ a →
    g.image a = f.image a

instance (f g : Flash) : Decidable (SameScripts f g) :=
  inferInstanceAs (Decidable (∀ a < _, _ → _))

/-- A callback or timer, run on top of whatever waits. -/
def Machine.interrupt (m : Machine) : Event → Option Machine
  | .linkUp => some { m with fw := { m.fw with linkUp := true } }
  | .subscribe =>
    if m.fw.linkUp then some { m with fw := m.fw.setCtx .ble (cliReset (m.fw.ctx .ble)) } else none
  | .linkDown =>
    some { m with fw := { m.fw.setCtx .ble (cliReset (m.fw.ctx .ble)) with linkUp := false } }
  | .rx data =>
    if m.fw.linkUp then some { m with stack := .feed .ble data true :: m.stack } else none
  | .usb b =>
    -- the first byte ever is greeted
    let fw := if m.fw.usbGreeted then m.fw
      else { m.fw.setCtx .usb (cliReset (m.fw.ctx .usb)) with usbGreeted := true }
    some { m with fw := fw, stack := .feed .usb [b] false :: m.stack }
  | .fire target =>
    if target.length ≤ bindTargetMax then
      some ((cliDispatchLine .bg (Buffer.ofString (bindTargetMax + 1) target) m.fw).resume m.stack)
    else none
  | .elsewhere flash =>
    if SameScripts m.fw.flash flash then some { m with fw := { m.fw with flash := flash } }
    else none
  | _ => none

/-- A piece of the body. After a callback that returns false there are no more. -/
def Machine.deliver (m : Machine) (data : List UInt8) : Option Machine :=
  if m.fw.fetchState.overflow then none else some { m with fw := fetchChunk data m.fw }

/-- The command that waits is woken. -/
def Machine.wake (m : Machine) : Event → Option Machine
  | .chunk data =>
    match m.stack with
    | .fetch _ :: _ => m.deliver data
    | _ => none
  | .chunkBelow data =>
    match m.stack with
    | .leaf _ _ :: _ => if m.fw.fetches = [] then none else m.deliver data
    | _ => none
  | .httpDone t ok =>
    match m.stack with
    -- a callback that returns false makes `http_get` fail
    | .fetch name :: below =>
      if ok ∧ m.fw.fetchState.overflow then none else some ((fetchDone t ok name m.fw).resume below)
    | _ => none
  | .httpGet =>
    match m.stack with
    | .leaf _ _ :: _ => some m
    | _ => none
  | .leafDone rc =>
    match m.stack with
    | .leaf _ _ :: below => some { m with stack := below, rc := rc }
    | _ => none
  | _ => none

/-- One step. -/
def Machine.step (m : Machine) : Event → Option Machine
  | .tick t =>
    match m.stack with
    | [] => none
    | f :: below => (runFrame t f m.fw m.rc).map (·.resume below)
  | e =>
    if m.polls then
      match m.interrupt e with
      | some m' => some m'
      | none => m.wake e
    else none

/-- After start-up. -/
def Machine.boot (flash : Flash) : Machine := { fw := Fw.boot flash, stack := [], rc := 0 }

/-- The firmware's shells, from any flash. -/
def machine : LTS Machine Event := LTS.ofFun (fun m => ∃ flash, m = Machine.boot flash) Machine.step

/-- Every flash operation succeeds, and there is no Wi-Fi. -/
def calm : Tick := { flashOk := fun _ => true, wifiUp := false }

/-- Nothing is stored. -/
def erased : PicoBLE.Ota.Flash := { image := fun _ => 0xFF, log := [] }

end PicoBLE.Cli
