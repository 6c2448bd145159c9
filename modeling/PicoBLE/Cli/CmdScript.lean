import PicoBLE.Cli.Parser
import PicoBLE.Cli.State

/-!
# `cli/commands/cmd_script.c`

`script save` puts a shell into capture mode: from then on its lines go to
`capture_line_cb`, into a buffer that all shells share, until `.end` or
`.abort`. `script fetch` fills the same buffer from `http_get`, with a counter
of its own.
-/

namespace PicoBLE.Cli

open CString (ascii)
open PicoBLE.Storage (scriptsSave scriptsRemove scriptsOpen scriptBodyMax scriptNameMax)

/-! ## Exit codes, of `command.h` -/

def cliOk : Int := 0
def cliErrUsage : Int := 1
def cliErrArg : Int := 2
def cliErrHardware : Int := 3

/-- A handler that returns at once. -/
def Fw.ret (fw : Fw) (rc : Int) : Ran := { fw := fw, push := [], rc := rc }

/-- A handler that goes on at a frame. -/
def Fw.goto (fw : Fw) (f : Frame) (rc : Int) : Ran := { fw := fw, push := [f], rc := rc }

/-- What `cli_printf` puts out, after it has formatted into a buffer of 256 bytes. -/
def cliPrintf (text : List UInt8) : List UInt8 := text.take 255

/-! ## Capture -/

/-- `skip_ws`. -/
def skipWs (s : List UInt8) : List UInt8 := s.dropWhile isWs

/-- What all three ways out of a capture do: `cli_capture_end`, and the statics. -/
def Fw.endCapture (sh : Shell) (fw : Fw) : Fw :=
  { fw.setCtx sh { fw.ctx sh with capturing := false } with
    cap := { fw.cap with ownerTaken := false, len := 0, name := [] } }

/-- The text captured so far. -/
def Capture.text (c : Capture) : List UInt8 := c.buf.bytes.take c.len

/-- A line and its newline into the buffer. -/
def Capture.append (line : List UInt8) (c : Capture) : Capture :=
  { c with
    buf := (c.buf.write c.len line).set (c.len + line.length) 10
    len := c.len + line.length + 1 }

/-- `capture_line_cb`. -/
def captureLineCb (t : Tick) (sh : Shell) (line : List UInt8) (fw : Fw) : Fw :=
  if skipWs line = ascii ".end" then
    { fw with
      flash := (scriptsSave t.flashOk fw.cap.name (some fw.cap.text) fw.flash).1 }.endCapture sh
  else if skipWs line = ascii ".abort" then fw.endCapture sh
  else if fw.cap.len + line.length + 1 > scriptBodyMax then fw.endCapture sh
  else { fw with cap := fw.cap.append line }

/-- The four things that can come of a line: the capture is saved, thrown away, too long, or
goes on. -/
theorem captureLineCb_cases (t : Tick) (sh : Shell) (line : List UInt8) (fw : Fw) :
    (skipWs line = ascii ".end" ∧ captureLineCb t sh line fw = Fw.endCapture sh
      { fw with flash := (scriptsSave t.flashOk fw.cap.name (some fw.cap.text) fw.flash).1 }) ∨
    (skipWs line ≠ ascii ".end" ∧ captureLineCb t sh line fw = fw.endCapture sh) ∨
    (skipWs line ≠ ascii ".end" ∧ fw.cap.len + line.length + 1 ≤ scriptBodyMax ∧
      captureLineCb t sh line fw = { fw with cap := fw.cap.append line }) := by
  unfold captureLineCb
  split
  · next hend => exact .inl ⟨hend, rfl⟩
  · next hend =>
    split
    · exact .inr (.inl ⟨hend, rfl⟩)
    · split
      · exact .inr (.inl ⟨hend, rfl⟩)
      · next hfit => exact .inr (.inr ⟨hend, Nat.le_of_not_lt hfit, rfl⟩)

/-- The refusals of `cmd_save`. -/
def saveRefused (fw : Fw) (name : List UInt8) : Bool :=
  fw.cap.ownerTaken || name.length > scriptNameMax

/-- The rest of `cmd_save`: take the ownership, `cli_capture_begin`. -/
def Fw.beginCapture (sh : Shell) (name : List UInt8) (fw : Fw) : Fw :=
  { fw.setCtx sh { fw.ctx sh with capturing := true } with
    cap := { fw.cap with ownerTaken := true, len := 0, name := name.take scriptNameMax } }

/-- `cmd_save`. -/
def cmdSave (sh : Shell) (name : List UInt8) (fw : Fw) : Ran :=
  if saveRefused fw name then fw.ret cliErrArg
  else (fw.beginCapture sh name).ret cliOk

/-! ## Show, remove -/

/-- `cmd_show`, with `scripts_close`. -/
def cmdShow (name : List UInt8) (fw : Fw) : Ran :=
  match scriptsOpen fw.scriptOpen name fw.flash.image with
  | none => fw.ret cliErrArg
  | some _ => { fw with scriptOpen := false }.ret cliOk

/-- `cmd_rm`. -/
def cmdRm (t : Tick) (name : List UInt8) (fw : Fw) : Ran :=
  let (flash, removed) := scriptsRemove (t.flashOk 0) name fw.flash
  { fw with flash := flash }.ret (if removed then cliOk else cliErrArg)

/-! ## Fetch -/

/-- The refusals of `cmd_fetch`. -/
def fetchRefused (t : Tick) (fw : Fw) (name : List UInt8) : Bool :=
  !t.wifiUp || name.length > scriptNameMax || fw.cap.ownerTaken

/-- `cmd_fetch` up to `http_get`. -/
def cmdFetch (t : Tick) (name : Arg) (fw : Fw) : Ran :=
  if fetchRefused t fw (fw.str name) then fw.ret (if t.wifiUp then cliErrArg else cliErrHardware)
  else Fw.goto { fw with fetches := { bytes := 0, overflow := false } :: fw.fetches }
    (.fetch name) cliOk

/-- `fetch_chunk`. It returns `!overflow`. -/
def fetchChunk (data : List UInt8) (fw : Fw) : Fw :=
  let s := fw.fetchState
  if s.bytes + data.length > scriptBodyMax then fw.setFetchState { s with overflow := true }
  else
    { fw with cap := { fw.cap with buf := fw.cap.buf.write s.bytes data } }.setFetchState
      { s with bytes := s.bytes + data.length }

/-- What `http_get` has left in the buffer. -/
def Capture.fetched (c : Capture) (bytes : Nat) : List UInt8 := c.buf.bytes.take bytes

/-- `cmd_fetch` from the return of `http_get` on, given whether it was `HTTP_OK`. -/
def fetchDone (t : Tick) (httpOk : Bool) (name : Arg) (fw : Fw) : Ran :=
  let s := fw.fetchState
  let fw := { fw with fetches := fw.fetches.tail }
  if ¬ httpOk then fw.ret cliErrHardware
  else
    let (flash, saved) :=
      scriptsSave t.flashOk (fw.str name) (some (fw.cap.fetched s.bytes)) fw.flash
    { fw with flash := flash }.ret (if saved then cliOk else cliErrHardware)

/-- A piece of the body only goes into the buffer, and is counted. -/
theorem fetchChunk_fw (data : List UInt8) (fw : Fw) :
    ∃ buf fetches, fetchChunk data fw =
      { fw with cap := { fw.cap with buf := buf }, fetches := fetches } := by
  unfold fetchChunk
  dsimp only
  split
  · exact ⟨fw.cap.buf, _, rfl⟩
  · exact ⟨_, _, rfl⟩

/-- The end of a fetch touches the flash, and returns. -/
theorem fetchDone_fw (t : Tick) (httpOk : Bool) (name : Arg) (fw : Fw) :
    ∃ flash rc, fetchDone t httpOk name fw =
      Fw.ret { fw with flash := flash, fetches := fw.fetches.tail } rc := by
  unfold fetchDone
  dsimp only
  split
  · exact ⟨fw.flash, cliErrHardware, rfl⟩
  · exact ⟨_, _, rfl⟩

/-! ## The command -/

/-- `script save`, `list`, `show`, `rm` or `fetch`. -/
inductive ScriptSub where
  | save (name : Arg)
  | list
  | show (name : Arg)
  | rm (name : Arg)
  | fetch (name : Arg)
  | usage

/-- The comparisons in `handle`. -/
def scriptSub (fw : Fw) (argv : List Arg) : ScriptSub :=
  match argv with
  | _ :: sub :: rest =>
    if fw.str sub = ascii "save" then
      match rest with
      | name :: _ => .save name
      | [] => .usage
    else if fw.str sub = ascii "list" then .list
    else if fw.str sub = ascii "show" then
      match rest with
      | name :: _ => .show name
      | [] => .usage
    else if fw.str sub = ascii "rm" then
      match rest with
      | name :: _ => .rm name
      | [] => .usage
    else if fw.str sub = ascii "fetch" then
      match rest with
      | name :: _ :: _ => .fetch name
      | _ => .usage
    else .usage
  | _ => .usage

/-- `handle`. -/
def handleScript (t : Tick) (sh : Shell) (argv : List Arg) (fw : Fw) : Ran :=
  match scriptSub fw argv with
  | .save name => cmdSave sh (fw.str name) fw
  | .list => fw.ret cliOk
  | .show name => cmdShow (fw.str name) fw
  | .rm name => cmdRm t (fw.str name) fw
  | .fetch name => cmdFetch t name fw
  | .usage => fw.ret cliErrUsage

/-- It returns with the capture begun, a script closed or the flash changed, or waits for
`http_get`. -/
theorem handleScript_cases (t : Tick) (sh : Shell) (argv : List Arg) (fw : Fw) :
    (∃ rc, handleScript t sh argv fw = fw.ret rc) ∨
    (∃ name, handleScript t sh argv fw = (fw.beginCapture sh name).ret cliOk) ∨
    handleScript t sh argv fw = Fw.ret { fw with scriptOpen := false } cliOk ∨
    (∃ flash rc, handleScript t sh argv fw = Fw.ret { fw with flash := flash } rc) ∨
    ∃ name, handleScript t sh argv fw =
      Fw.goto { fw with fetches := { bytes := 0, overflow := false } :: fw.fetches }
        (.fetch name) cliOk := by
  unfold handleScript
  cases scriptSub fw argv with
  | save name =>
    dsimp only
    unfold cmdSave
    split
    · exact .inl ⟨_, rfl⟩
    · exact .inr (.inl ⟨_, rfl⟩)
  | list => exact .inl ⟨_, rfl⟩
  | «show» name =>
    dsimp only
    unfold cmdShow
    split
    · exact .inl ⟨_, rfl⟩
    · exact .inr (.inr (.inl rfl))
  | rm name => exact .inr (.inr (.inr (.inl ⟨_, _, rfl⟩)))
  | fetch name =>
    dsimp only
    unfold cmdFetch
    split
    · exact .inl ⟨_, rfl⟩
    · exact .inr (.inr (.inr (.inr ⟨name, rfl⟩)))
  | usage => exact .inl ⟨_, rfl⟩

end PicoBLE.Cli
