import Mathlib.Logic.Function.Basic
import PicoBLE.Cli.Expand
import PicoBLE.Storage.Scripts

/-!
# The shells and what they share

`main.c` sets up three shells: one for BLE, one for USB and one for the
bindings, whose output goes nowhere and which is never fed. Each has a line
buffer of its own. Everything else that commands work on is there once and is
shared by the three.

Waiting commands call `cyw43_arch_poll`, and that runs the callbacks and timers
that feed the shells. So a command can be interrupted by other commands, on
any shell, and by input for its own. The C stack of all that is in progress is
a list of frames, each one a place where a function goes on once what it called
has returned.
-/

namespace PicoBLE.Cli

open PicoBLE.System (VarTable)
open PicoBLE.Ota (Flash)
open PicoBLE.Storage (OpenScript scriptBodyMax)

/-! ## One shell -/

/-- `g_ble_ctx`, `g_usb_ctx` and `g_bg_ctx`. -/
inductive Shell where
  | ble
  | usb
  | bg
deriving DecidableEq, Repr

def cliLineMax : Nat := 256

theorem cliLineMax_pos : 0 < cliLineMax := Nat.succ_pos 255

/-- `cli_ctx_t`, without the output sink. -/
structure CliCtx where
  line : Buffer cliLineMax
  lineLen : Fin cliLineMax
  lastWasCr : Bool
  /-- `capture_cb` is not NULL. The only callback there is is `capture_line_cb`. -/
  capturing : Bool

/-- `line_len = 0`. -/
def CliCtx.clearLine (c : CliCtx) : CliCtx := { c with lineLen := ⟨0, cliLineMax_pos⟩ }

/-- `cli_init`. -/
def cliInit : CliCtx where
  line := Buffer.zero cliLineMax
  lineLen := ⟨0, cliLineMax_pos⟩
  lastWasCr := false
  capturing := false

/-- `cli_reset`. -/
def cliReset (c : CliCtx) : CliCtx := { c.clearLine with lastWasCr := false, capturing := false }

/-! ## What the shells share -/

/-- The statics of `cmd_script.c`, the name as the string in its array. -/
structure Capture where
  buf : Buffer (scriptBodyMax + 1)
  len : Nat
  name : List UInt8
  ownerTaken : Bool

/-- `fetch_state_t`: what `fetch_chunk` has counted. -/
structure FetchState where
  bytes : Nat
  overflow : Bool
deriving DecidableEq

/-- The static variables of the firmware that the shell works on. -/
structure Fw where
  /-- A central is connected. -/
  linkUp : Bool
  usbGreeted : Bool
  ctx : Shell → CliCtx
  expandBuf : ExpandBuf
  vars : VarTable
  shell : ShellState
  cap : Capture
  flash : Flash
  /-- `g_open`, of `scripts.c`. -/
  scriptOpen : Bool
  /-- `g_running`, of `cmd_run.c`. -/
  running : Bool
  /-- The `fetch_state_t` of every `cmd_fetch` in progress, the latest first. It is a local of that
  function, and `http_get` hands its address to `fetch_chunk`. -/
  fetches : List FetchState

namespace Fw

variable (fw : Fw)

/-- The string that an argument of a handler is. -/
def str (a : Arg) : List UInt8 := fw.expandBuf.str a.ptr

/-- Change one shell's context. -/
def setCtx (sh : Shell) (c : CliCtx) : Fw := { fw with ctx := Function.update fw.ctx sh c }

/-- `shell_set_status`. -/
def setStatus (rc : Int) : Fw := { fw with shell := { fw.shell with status := rc } }

/-- The one that `http_get` was called with last. -/
def fetchState : FetchState := fw.fetches.headD { bytes := 0, overflow := false }

/-- `fetch_chunk` writes to it. -/
def setFetchState (s : FetchState) : Fw := { fw with fetches := s :: fw.fetches.tail }

@[simp] theorem setCtx_self (sh : Shell) (c : CliCtx) : (fw.setCtx sh c).ctx sh = c :=
  Function.update_self _ _ _

theorem setCtx_of_ne {sh other : Shell} (c : CliCtx) (h : other ≠ sh) :
    (fw.setCtx sh c).ctx other = fw.ctx other := Function.update_of_ne h _ _

end Fw

/-- After start-up, with some flash. -/
def Fw.boot (flash : Flash) : Fw where
  linkUp := false
  usbGreeted := false
  ctx := fun _ => cliInit
  expandBuf := Buffer.zero cliExpandBufSize
  vars := VarTable.empty
  shell := { frames := [], status := 0 }
  cap := { buf := Buffer.zero _, len := 0, name := [], ownerTaken := false }
  flash := flash
  scriptOpen := false
  running := false
  fetches := []

/-! ## The C stack -/

/-- Where a function goes on. -/
inductive Frame where
  /-- `cli_feed`, with these bytes still to come; `cli_feed_line` when `packet`. -/
  | feed (sh : Shell) (data : List UInt8) (packet : Bool)
  /-- `end_of_line`, behind the call that got the line. -/
  | lineDone (sh : Shell)
  /-- `cli_dispatch_argv`, at its start. -/
  | dispatch (sh : Shell) (argv : List Arg)
  /-- `cli_dispatch_argv`, behind the handler. -/
  | handled
  /-- The loop of `repeat`, before turn `i` of `n`. -/
  | repeatNext (sh : Shell) (sub : List Arg) (i n : Nat)
  /-- The same, behind the call in turn `i`. -/
  | repeatCheck (sh : Shell) (sub : List Arg) (i n : Nat)
  /-- The loop of `while`, before turn `i`. -/
  | whileNext (sh : Shell) (cond body : List Arg) (i : Nat)
  /-- The same, behind the condition. -/
  | whileCond (sh : Shell) (cond body : List Arg) (i : Nat)
  /-- The same, behind the body. -/
  | whileBody (sh : Shell) (cond body : List Arg) (i : Nat)
  /-- `if`, behind the condition. -/
  | ifCond (sh : Shell) (thenArgv elseArgv : List Arg)
  /-- The loop of `run`, at offset `off` of the script. -/
  | runNext (sh : Shell) (script : OpenScript) (off : Nat)
  /-- `script fetch`, in `http_get`. -/
  | fetch (name : Arg)
  /-- Any other handler. -/
  | leaf (sh : Shell) (argv : List Arg)
deriving DecidableEq

/-- What is in progress, innermost first, and the value returned last. -/
structure Machine where
  fw : Fw
  stack : List Frame
  rc : Int

/-- How a piece of a function ends: the statics, the frames it leaves in place of its own
(none if it returns), and the value it returns. -/
structure Ran where
  fw : Fw
  push : List Frame
  rc : Int

/-- What the piece asks of the world outside. -/
structure Tick where
  /-- How the flash operations end. -/
  flashOk : Nat → Bool
  /-- `wifi_is_connected`. -/
  wifiUp : Bool

end PicoBLE.Cli
