import PicoBLE.Cli.CmdScript

/-!
# Dispatch, and the commands that dispatch

`cli_dispatch_line` tokenizes a line, expands it and calls a handler. `repeat`,
`while` and `if` call `cli_dispatch_argv` again with part of their own
arguments, and `run` calls `cli_dispatch_line` with the lines of a script.
Each of them goes on after such a call, so each is a frame or two.

The commands that only look at hardware or print are one frame, `leaf`, which
may return anything.
-/

namespace PicoBLE.Cli

open CString (ascii)
open NorFlash (Image)
open PicoBLE.System (varsSet varsUnset)
open PicoBLE.Storage (OpenScript scriptsOpen)

/-! ## The commands, of `command.c` -/

/-- The handlers. -/
inductive Handler where
  | cmdRepeat
  | cmdWhile
  | cmdIf
  | cmdRun
  | cmdScript
  | cmdSet
  | cmdUnset
  /-- Any other. -/
  | leaf
deriving DecidableEq, Repr

/-- The registered commands, in the order of their names. -/
def commands : List (String × Handler) :=
  [("adc", .leaf), ("bind", .leaf), ("bindings", .leaf), ("clear", .leaf), ("echo", .leaf),
   ("env", .leaf), ("gpio", .leaf), ("help", .leaf), ("i2c", .leaf), ("if", .cmdIf), ("net", .leaf),
   ("ota", .leaf), ("pwm", .leaf), ("reboot", .leaf), ("repeat", .cmdRepeat), ("run", .cmdRun),
   ("script", .cmdScript), ("set", .cmdSet), ("sleep", .leaf), ("system", .leaf), ("temp", .leaf),
   ("unbind", .leaf), ("unset", .cmdUnset), ("uptime", .leaf), ("version", .leaf),
   ("while", .cmdWhile), ("wifi", .leaf)]

/-- `cli_command_find`. -/
def cliCommandFind (name : List UInt8) : Option Handler :=
  (commands.find? fun c => ascii c.1 = name).map (·.2)

/-! ## `repeat`, `while`, `if` -/

/-- `cmd_repeat.c`, up to the loop. -/
def handleRepeat (sh : Shell) (argv : List Arg) (fw : Fw) : Ran :=
  match argv with
  | _ :: count :: sub@(_ :: _) =>
    let (n, rest) := CString.strtol (fw.str count)
    if rest ≠ [] ∨ n ≤ 0 ∨ n > 100000 then fw.ret cliErrArg
    else fw.goto (.repeatNext sh sub 0 n.toNat) cliOk
  | _ => fw.ret cliErrUsage

/-- Before a turn. -/
def repeatNext (sh : Shell) (sub : List Arg) (i n : Nat) (fw : Fw) : Ran :=
  if i < n then { fw := fw, push := [.dispatch sh sub, .repeatCheck sh sub i n], rc := cliOk }
  else fw.ret cliOk

/-- Behind the call. -/
def repeatCheck (sh : Shell) (sub : List Arg) (i n : Nat) (rc : Int) (fw : Fw) : Ran :=
  if rc = cliErrHardware then fw.ret rc else fw.goto (.repeatNext sh sub (i + 1) n) rc

/-- `WHILE_MAX_ITER`. -/
def whileMaxIter : Nat := 10000

/-- The index of the first argument that is a given word. -/
def findWord (fw : Fw) (word : String) (argv : List Arg) : Option Nat :=
  argv.findIdx? fun a => fw.str a = ascii word

/-- `cmd_while.c`, up to the loop. -/
def handleWhile (sh : Shell) (argv : List Arg) (fw : Fw) : Ran :=
  let args := argv.drop 1
  if argv.length < 4 then fw.ret cliErrUsage
  else
    match findWord fw "do" args with
    | none => fw.ret cliErrUsage
    | some i =>
      if i = 0 ∨ args.drop (i + 1) = [] then fw.ret cliErrUsage
      else fw.goto (.whileNext sh (args.take i) (args.drop (i + 1)) 0) cliOk

/-- Before a turn. -/
def whileNext (sh : Shell) (cond body : List Arg) (i : Nat) (fw : Fw) : Ran :=
  if i < whileMaxIter then
    { fw := fw, push := [.dispatch sh cond, .whileCond sh cond body i], rc := cliOk }
  else fw.ret cliErrHardware

/-- Behind the condition. -/
def whileCond (sh : Shell) (cond body : List Arg) (i : Nat) (rc : Int) (fw : Fw) : Ran :=
  if rc ≠ cliOk then fw.ret cliOk
  else { fw := fw, push := [.dispatch sh body, .whileBody sh cond body i], rc := rc }

/-- Behind the body. -/
def whileBody (sh : Shell) (cond body : List Arg) (i : Nat) (rc : Int) (fw : Fw) : Ran :=
  if rc = cliErrHardware then fw.ret rc else fw.goto (.whileNext sh cond body (i + 1)) rc

/-- The two branches of `if`, out of what stands behind `then`. -/
def ifBranches (fw : Fw) (after : List Arg) : List Arg × List Arg :=
  match findWord fw "else" after with
  | none => (after, [])
  | some j => (after.take j, after.drop (j + 1))

/-- `cmd_if.c`, up to the condition. -/
def handleIf (sh : Shell) (argv : List Arg) (fw : Fw) : Ran :=
  let args := argv.drop 1
  if argv.length < 4 then fw.ret cliErrUsage
  else
    match findWord fw "then" args with
    | none => fw.ret cliErrUsage
    | some i =>
      let branches := ifBranches fw (args.drop (i + 1))
      if i = 0 ∨ branches.1 = [] then fw.ret cliErrUsage
      else
        { fw := fw, push := [.dispatch sh (args.take i), .ifCond sh branches.1 branches.2],
          rc := cliOk }

/-- Behind the condition: the branch is called last, so `if` returns what it returns. -/
def ifCond (sh : Shell) (thenArgv elseArgv : List Arg) (rc : Int) (fw : Fw) : Ran :=
  if rc = cliOk then fw.goto (.dispatch sh thenArgv) rc
  else if elseArgv ≠ [] then fw.goto (.dispatch sh elseArgv) rc
  else fw.ret cliOk

/-! ## `set` and `unset` -/

/-- The index of the `=` that `cmd_set.c` overwrites, when it has one argument. -/
def setSplit (fw : Fw) (argv : List Arg) : Option Nat :=
  match argv with
  | [_, a] => if 61 ∈ fw.str a then some (a.ptr + (fw.str a).idxOf 61) else none
  | _ => none

/-- `cmd_set.c`. -/
def handleSet (argv : List Arg) (fw : Fw) : Ran :=
  let assign (fw : Fw) (name value : List UInt8) : Ran :=
    match varsSet name value fw.vars with
    | none => fw.ret cliErrArg
    | some vars => { fw with vars := vars }.ret cliOk
  match argv with
  | [_] => fw.ret cliOk
  | [_, a] =>
    match setSplit fw argv with
    | none => fw.ret cliErrUsage
    | some eq =>
      let fw := { fw with expandBuf := fw.expandBuf.set eq 0 }
      assign fw (fw.str a) (fw.expandBuf.str (eq + 1))
  | _ :: name :: value :: _ => assign fw (fw.str name) (fw.str value)
  | [] => fw.ret cliErrUsage

/-- `cmd_unset.c`. -/
def handleUnset (argv : List Arg) (fw : Fw) : Ran :=
  if argv.length < 2 then fw.ret cliErrUsage
  else
    let vars := (argv.drop 1).foldl (fun vars a => (varsUnset (fw.str a) vars).getD vars) fw.vars
    { fw with vars := vars }.ret cliOk

/-! ## `run` -/

/-- `cmd_run.c`, up to the loop. -/
def handleRun (sh : Shell) (argv : List Arg) (fw : Fw) : Ran :=
  match argv with
  | _ :: name :: _ =>
    if fw.running then fw.ret cliErrArg
    else
      match scriptsOpen fw.scriptOpen (fw.str name) fw.flash.image with
      | none => fw.ret cliErrArg
      | some script =>
        match shellPushArgs ((argv.drop 1).map fw.str) fw.shell with
        -- the frame stack is full: closed again
        | none => { fw with running := false, scriptOpen := false }.ret cliErrHardware
        | some shell =>
          { fw with shell := shell, running := true, scriptOpen := true }.goto
            (.runNext sh script 0) cliOk
  | _ => fw.ret cliErrUsage

/-- A character that ends a line of a script. -/
def isNewline (c : UInt8) : Bool := c = 10 || c = 13

/-- The characters that the loop of `run` copies into its line buffer. -/
def runLine (text : List UInt8) (off : Nat) : List UInt8 :=
  ((text.drop off).take (cliLineMax - 1)).takeWhile fun c => !isNewline c

/-- Where the loop goes on. -/
def runAdvance (text : List UInt8) (off : Nat) : Nat :=
  let stop := off + (runLine text off).length
  stop + ((text.drop stop).takeWhile isNewline).length

/-- The line is blank or a comment. -/
def runSkips (line : List UInt8) : Bool :=
  match skipWs (CString.ofBuffer line) with
  | [] => true
  | c :: _ => c = 35

/-- Behind the loop. -/
def runReturn (fw : Fw) : Ran :=
  { fw with shell := shellPopArgs fw.shell, running := false, scriptOpen := false }.ret cliOk

/-! ## Dispatch, of `cli.c` -/

/-- The call of a handler. -/
def callHandler (t : Tick) (sh : Shell) (argv : List Arg) (fw : Fw) : Handler → Ran
  | .cmdRepeat => handleRepeat sh argv fw
  | .cmdWhile => handleWhile sh argv fw
  | .cmdIf => handleIf sh argv fw
  | .cmdRun => handleRun sh argv fw
  | .cmdScript => handleScript t sh argv fw
  | .cmdSet => handleSet argv fw
  | .cmdUnset => handleUnset argv fw
  | .leaf => fw.goto (.leaf sh argv) cliOk

/-- `shell_set_status` and the return come behind the handler. -/
def Ran.called (r : Ran) : Ran := { r with push := r.push ++ [.handled] }

/-- `cli_dispatch_argv`, up to the return of the handler. -/
def cliDispatchArgv (t : Tick) (sh : Shell) (argv : List Arg) (fw : Fw) : Ran :=
  match argv with
  | [] => fw.ret cliOk
  | name :: _ =>
    match cliCommandFind (fw.str name) with
    | none => (fw.setStatus cliErrArg).ret cliErrArg
    | some h => (callHandler t sh argv fw h).called

/-- What `cli_dispatch_line` reads off a line: the tokens, or nothing if it returns before
the expansion, with the value it returns. -/
def lineTokens {n : Nat} (line : Buffer n) : Except Int (List (List UInt8)) :=
  if line.get 0 = 0 then .error 0
  else
    match argvOf (cliParse line cliMaxArgs) with
    | .error _ => .error cliErrArg
    | .ok [] => .error 0
    | .ok toks => .ok toks

/-- `cli_dispatch_line`, up to the call of `cli_dispatch_argv`. -/
def cliDispatchLine {n : Nat} (sh : Shell) (line : Buffer n) (fw : Fw) : Ran :=
  match lineTokens line with
  | .error rc => fw.ret rc
  | .ok toks =>
    match expandArgv fw.vars fw.shell toks fw.expandBuf with
    | (buf, _, none) => { fw with expandBuf := buf }.ret cliErrArg
    | (buf, _, some argv) => { fw with expandBuf := buf }.goto (.dispatch sh argv) cliOk

/-- The array that holds the line, afterwards. -/
def tokenized {n : Nat} (line : Buffer n) : Buffer n :=
  if line.get 0 = 0 then line else (cliParse line cliMaxArgs).1

/-- The loop of `run`. -/
def runNext (sh : Shell) (script : OpenScript) (off : Nat) (fw : Fw) : Ran :=
  if off < script.bodyLen then
    let text := script.text fw.flash.image
    let next := Frame.runNext sh script (runAdvance text off)
    if runSkips (runLine text off) then fw.goto next cliOk
    else
      let r := cliDispatchLine sh (Buffer.ofString cliLineMax (runLine text off)) fw
      { r with push := r.push ++ [next] }
  else runReturn fw

/-- A line is refused, cannot be expanded, or comes to a dispatch. -/
theorem dispatchLine_cases {n : Nat} (sh : Shell) (line : Buffer n) (fw : Fw) :
    (∃ rc, lineTokens line = .error rc ∧ cliDispatchLine sh line fw = fw.ret rc) ∨
    ∃ toks buf off, lineTokens line = .ok toks ∧
      (expandArgv fw.vars fw.shell toks fw.expandBuf = (buf, off, none) ∧
        cliDispatchLine sh line fw = Fw.ret { fw with expandBuf := buf } cliErrArg ∨
      ∃ argv, expandArgv fw.vars fw.shell toks fw.expandBuf = (buf, off, some argv) ∧
        cliDispatchLine sh line fw = Fw.goto { fw with expandBuf := buf }
          (.dispatch sh argv) cliOk) := by
  unfold cliDispatchLine
  cases lineTokens line with
  | error rc => exact .inl ⟨rc, rfl, rfl⟩
  | ok toks =>
    rcases he : expandArgv fw.vars fw.shell toks fw.expandBuf with ⟨buf, off, _ | argv⟩
    · exact .inr ⟨toks, buf, off, rfl, .inl ⟨he, by simp only [he]⟩⟩
    · exact .inr ⟨toks, buf, off, rfl, .inr ⟨argv, he, by simp only [he]⟩⟩

/-! ## What a handler comes to

A handler returns at once, or goes on at a frame that has parts of its
arguments. What it leaves of the firmware can be said without its conditions.
-/

section Handlers

variable (sh : Shell) (argv : List Arg) (fw : Fw)

theorem handleRepeat_cases : (∃ rc, handleRepeat sh argv fw = fw.ret rc) ∨
    ∃ name count a rest n, argv = name :: count :: a :: rest ∧ n ≤ 100000 ∧
      handleRepeat sh argv fw = fw.goto (.repeatNext sh (a :: rest) 0 n) cliOk := by
  unfold handleRepeat
  split
  · next name count a rest =>
    dsimp only
    split
    · exact .inl ⟨_, rfl⟩
    · next hcount =>
      have hturns : (CString.strtol (fw.str count)).1.toNat ≤ 100000 := by omega
      exact .inr ⟨name, count, a, rest, _, rfl, hturns, rfl⟩
  · exact .inl ⟨_, rfl⟩

theorem handleWhile_cases : (∃ rc, handleWhile sh argv fw = fw.ret rc) ∨
    ∃ i, findWord fw "do" (argv.drop 1) = some i ∧ i ≠ 0 ∧ (argv.drop 1).drop (i + 1) ≠ [] ∧
      handleWhile sh argv fw =
        fw.goto (.whileNext sh ((argv.drop 1).take i) ((argv.drop 1).drop (i + 1)) 0) cliOk := by
  unfold handleWhile
  dsimp only
  split
  · exact .inl ⟨_, rfl⟩
  · split
    · exact .inl ⟨_, rfl⟩
    · next i hi =>
      split
      · exact .inl ⟨_, rfl⟩
      · next hempty => exact .inr ⟨i, hi, fun h0 => hempty (.inl h0), fun hnil =>
          hempty (.inr hnil), rfl⟩

theorem handleIf_cases : (∃ rc, handleIf sh argv fw = fw.ret rc) ∨
    ∃ i, findWord fw "then" (argv.drop 1) = some i ∧ i ≠ 0 ∧
      (ifBranches fw ((argv.drop 1).drop (i + 1))).1 ≠ [] ∧
      handleIf sh argv fw =
        { fw := fw
          push := [.dispatch sh ((argv.drop 1).take i),
            .ifCond sh (ifBranches fw ((argv.drop 1).drop (i + 1))).1
              (ifBranches fw ((argv.drop 1).drop (i + 1))).2]
          rc := cliOk } := by
  unfold handleIf
  dsimp only
  split
  · exact .inl ⟨_, rfl⟩
  · split
    · exact .inl ⟨_, rfl⟩
    · next i hi =>
      split
      · exact .inl ⟨_, rfl⟩
      · next hempty => exact .inr ⟨i, hi, fun h0 => hempty (.inl h0), fun hnil =>
          hempty (.inr hnil), rfl⟩

/-- `set` writes to the variables, and to `g_expand_buf` to cut its argument. -/
theorem handleSet_eq : ∃ vars rc, handleSet argv fw =
    Fw.ret { fw with
      vars := vars
      expandBuf := ((setSplit fw argv).map fun i => fw.expandBuf.set i 0).getD fw.expandBuf }
          rc := by
  have hlen : argv.length ≠ 2 → setSplit fw argv = none := by
    intro hne
    unfold setSplit
    split
    · exact absurd rfl hne
    · rfl
  unfold handleSet
  dsimp only
  split
  · rw [hlen (by simp)]
    exact ⟨fw.vars, _, rfl⟩
  · split
    · next h =>
      rw [h]
      exact ⟨fw.vars, _, rfl⟩
    · next h =>
      rw [h]
      split <;> exact ⟨_, _, rfl⟩
  · rw [hlen (by simp)]
    split <;> exact ⟨_, _, rfl⟩
  · rw [hlen (by simp)]
    exact ⟨fw.vars, _, rfl⟩

theorem handleUnset_eq : ∃ vars rc, handleUnset argv fw = Fw.ret { fw with vars := vars } rc := by
  unfold handleUnset
  split
  · exact ⟨fw.vars, _, rfl⟩
  · exact ⟨_, _, rfl⟩

/-- `run` starts a script only when none is in progress. -/
theorem handleRun_cases : (∃ rc, handleRun sh argv fw = fw.ret rc) ∨
    fw.running = false ∧ ∃ name script, scriptsOpen fw.scriptOpen name fw.flash.image =
      some script ∧
      (handleRun sh argv fw = Fw.ret { fw with running := false, scriptOpen := false }
        cliErrHardware ∨
      ∃ shell, shellPushArgs ((argv.drop 1).map fw.str) fw.shell = some shell ∧
        handleRun sh argv fw =
          Fw.goto { fw with shell := shell, running := true, scriptOpen := true }
            (.runNext sh script 0) cliOk) := by
  unfold handleRun
  split
  · split
    · exact .inl ⟨_, rfl⟩
    · next hrun =>
      split
      · exact .inl ⟨_, rfl⟩
      · next script hopen =>
        refine .inr ⟨by simpa using hrun, _, script, hopen, ?_⟩
        split
        · exact .inl rfl
        · next shell hpush => exact .inr ⟨shell, hpush, rfl⟩
  · exact .inl ⟨_, rfl⟩

end Handlers

end PicoBLE.Cli
