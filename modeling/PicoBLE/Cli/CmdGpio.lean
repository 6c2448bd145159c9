import PicoBLE.Cli.ShellSteps

/-!
# `cli/commands/cmd_gpio.c`, and pins as conditions

`gpio <pin> read` prints the level, and returns `CLI_OK` because it could be read.
`if` and `while` go by what their condition returns. So a pin that can be read
is a condition that is met, whatever its level.

The handler is run on the arguments of the innermost frame. What `if` and `while`
make of the level that it has just read is recorded.
-/

namespace PicoBLE.Cli

open CString (ascii)

/-! ## `drivers/gpio_ctrl.c` -/

/-- `GPIO_CTRL_MAX_PIN`. -/
def gpioCtrlMaxPin : Nat := 29

/-- `g_initialized`, and what the SIO block drives. -/
structure Pads where
  initialized : Nat → Bool
  isOut : Nat → Bool
  out : Nat → Bool

def Pads.reset : Pads := ⟨fun _ => false, fun _ => false, fun _ => false⟩

/-- `ensure_init`, with the `gpio_init` of the SDK. -/
def ensureInit (pin : Nat) (p : Pads) : Pads :=
  if p.initialized pin then p
  else
    { initialized := Function.update p.initialized pin true
      isOut := Function.update p.isOut pin false
      out := Function.update p.out pin false }

/-- `gpio_ctrl_is_valid`. -/
def gpioCtrlIsValid (pin : Nat) : Bool := pin ≤ gpioCtrlMaxPin

/-- `gpio_ctrl_write`, or `none` for false. -/
def gpioCtrlWrite (pin : Nat) (level : Bool) (p : Pads) : Option Pads :=
  if ¬ gpioCtrlIsValid pin then none
  else
    let p := ensureInit pin p
    some
      { p with isOut := Function.update p.isOut pin true, out := Function.update p.out pin level }

/-- `gpio_ctrl_toggle`, or `none` for false. -/
def gpioCtrlToggle (pin : Nat) (p : Pads) : Option Pads :=
  if ¬ gpioCtrlIsValid pin then none
  else
    let p := ensureInit pin p
    some { p with
      isOut := Function.update p.isOut pin true
      out := Function.update p.out pin (!p.out pin) }

/-- `gpio_ctrl_read`, when `gpio_get` returns this level, or `none` for false. -/
def gpioCtrlRead (pin : Nat) (level : Bool) (p : Pads) : Option (Pads × Bool) :=
  if ¬ gpioCtrlIsValid pin then none
  else
    let p := ensureInit pin p
    some ({ p with isOut := Function.update p.isOut pin false }, level)

/-! ## The command -/

/-- `DURATION_MAX_MS`. -/
def durationMaxMs : Nat := 60 * 1000

/-- `cli_parse_duration_ms`. -/
def cliParseDurationMs (s : List UInt8) : Option Nat :=
  if s = [] then none
  else
    let (v, rest) := CString.strtoul s
    if rest = s then none
    else
      let ms :=
        if rest = [] ∨ rest = ascii "ms" then some v
        else if rest = ascii "s" then if v > durationMaxMs / 1000 then none else some (v * 1000)
        else none
      ms.filter fun ms => ms ≠ 0 ∧ ms ≤ durationMaxMs

/-- `parse_pin`. -/
def parsePin (s : List UInt8) : Option Nat :=
  if s = [] then none
  else
    let (v, rest) := CString.strtoul s
    if rest ≠ [] then none else if v > gpioCtrlMaxPin then none else some v

/-- What the handler leaves: the pads, the value it returns, and the level that it prints. -/
structure GpioRan where
  pads : Pads
  rc : Int
  printed : Option Bool

/-- `gpio_ctrl_write(..) ? CLI_OK : CLI_ERR_HARDWARE`. -/
def Pads.driven (p : Pads) (after : Option Pads) : GpioRan :=
  match after with
  | none => ⟨p, cliErrHardware, none⟩
  | some p => ⟨p, cliOk, none⟩

/-- `handle`, less its messages. `level` is what `gpio_get` returns. -/
def handleGpio (argv : List (List UInt8)) (level : Bool) (p : Pads) : GpioRan :=
  match argv with
  | _ :: pinArg :: op :: rest =>
    match parsePin pinArg with
    | none => ⟨p, cliErrArg, none⟩
    | some pin =>
      if op = ascii "read" then
        match gpioCtrlRead pin level p with
        | none => ⟨p, cliErrHardware, none⟩
        | some (p, level) => ⟨p, cliOk, some level⟩
      else if op = ascii "high" then p.driven (gpioCtrlWrite pin true p)
      else if op = ascii "low" then p.driven (gpioCtrlWrite pin false p)
      else if op = ascii "toggle" then p.driven (gpioCtrlToggle pin p)
      else if op = ascii "latch" then
        match rest with
        | [] => ⟨p, cliErrUsage, none⟩
        | duration :: _ =>
          match cliParseDurationMs duration with
          | none => ⟨p, cliErrArg, none⟩
          | some _ => p.driven ((gpioCtrlWrite pin true p).bind (gpioCtrlWrite pin false))
      else ⟨p, cliErrUsage, none⟩
  | _ => ⟨p, cliErrUsage, none⟩

theorem driven_printed (p : Pads) (after : Option Pads) : (p.driven after).printed = none := by
  cases after <;> rfl

/-- **A level that is printed is a success**, whatever it is. -/
theorem handleGpio_printed {argv : List (List UInt8)} {level l : Bool} {p : Pads} {r : GpioRan}
    (hr : handleGpio argv level p = r) (h : r.printed = some l) : r.rc = cliOk ∧ l = level := by
  have hno : ∀ {q : Pads} {rc : Int}, r ≠ ⟨q, rc, none⟩ := by
    rintro q rc rfl
    exact absurd h (by simp)
  have hdriven : ∀ {after : Option Pads}, r ≠ p.driven after := by
    rintro after rfl
    rw [driven_printed] at h
    exact absurd h (by simp)
  unfold handleGpio at hr
  split at hr
  · split at hr
    · exact absurd hr.symm hno
    · split at hr
      · split at hr
        · exact absurd hr.symm hno
        · next hread =>
          unfold gpioCtrlRead at hread
          split at hread
          · exact absurd hread (by simp)
          · obtain ⟨-, rfl⟩ := Prod.mk.inj (Option.some.inj hread)
            subst hr
            exact ⟨rfl, (Option.some.inj h).symm⟩
      -- none of the others prints one
      · split at hr
        · exact absurd hr.symm hdriven
        · split at hr
          · exact absurd hr.symm hdriven
          · split at hr
            · exact absurd hr.symm hdriven
            · split at hr
              · split at hr
                · exact absurd hr.symm hno
                · split at hr
                  · exact absurd hr.symm hno
                  · exact absurd hr.symm hdriven
              · exact absurd hr.symm hno
  · exact absurd hr.symm hno

/-! ## The branches of `if` are two commands -/

/-- The arguments stand one behind the other in `g_expand_buf`. -/
def ArgsInOrder (argv : List Arg) : Prop := argv.Pairwise fun a b => a.ptr < b.ptr

theorem expandFrom_inOrder {vars : PicoBLE.System.VarTable} {shell : ShellState}
    {toks : List (List UInt8)} {buf : ExpandBuf} {off : Nat} {args : List Arg}
    (h : (expandFrom vars shell toks buf off).2.2 = some args) : ArgsInOrder args ∧
    ∀ a ∈ args, off ≤ a.ptr := by
  induction toks generalizing buf off args with
  | nil =>
    obtain rfl := Option.some.inj h
    exact ⟨List.Pairwise.nil, fun a ha => absurd ha List.not_mem_nil⟩
  | cons tok toks ih =>
    have htok := (expandToken_writes vars shell tok.length tok buf off).le
    rw [expandFrom] at h
    split at h
    · exact absurd h (by simp)
    · next buf' stop heq =>
      rw [heq] at htok
      split at h
      · exact absurd h (by simp)
      · obtain ⟨args', hargs, rfl⟩ := Option.map_eq_some_iff.mp h
        obtain ⟨hin, hle⟩ := ih hargs
        dsimp only at htok
        refine ⟨List.pairwise_cons.mpr ⟨fun a ha => ?_, hin⟩,
          List.forall_mem_cons.mpr ⟨Nat.le_refl off, fun a ha => ?_⟩⟩
        · show off < a.ptr
          have := hle a ha
          omega
        · have := hle a ha
          omega

theorem ArgsInOrder.sublist {argv sub : List Arg} (h : ArgsInOrder argv) (hs : sub.Sublist argv) :
    ArgsInOrder sub :=
  List.Pairwise.sublist hs h

/-- Two commands that do not overlap are not the same. -/
theorem ArgsInOrder.ne {xs ys : List Arg} (h : ArgsInOrder (xs ++ ys)) (hne : xs ≠ []) :
    xs ≠ ys := by
  rintro rfl
  obtain ⟨a, rest, rfl⟩ := List.exists_cons_of_ne_nil hne
  have hlt := (List.pairwise_append.mp h).2.2 a List.mem_cons_self a List.mem_cons_self
  exact Nat.lt_irrefl _ hlt

/-- What a frame will dispatch. -/
def Frame.InOrder : Frame → Prop
  | .dispatch _ argv => ArgsInOrder argv
  | .repeatNext _ sub _ _ => ArgsInOrder sub
  | .repeatCheck _ sub _ _ => ArgsInOrder sub
  | .whileNext _ cond body _ => ArgsInOrder cond ∧ ArgsInOrder body
  | .whileCond _ cond body _ => ArgsInOrder cond ∧ ArgsInOrder body
  | .whileBody _ cond body _ => ArgsInOrder cond ∧ ArgsInOrder body
  | .ifCond _ thenArgv elseArgv => ArgsInOrder thenArgv ∧ ArgsInOrder elseArgv ∧ thenArgv ≠ elseArgv
  | _ => True

/-- All of them. -/
def Orderly (fs : List Frame) : Prop := ∀ f ∈ fs, f.InOrder

theorem orderly_nil : Orderly [] := fun _ hf => absurd hf List.not_mem_nil

theorem orderly_cons {f : Frame} {fs : List Frame} : Orderly (f :: fs) ↔ f.InOrder ∧ Orderly fs :=
  List.forall_mem_cons

theorem orderly_one {f : Frame} (h : f.InOrder) : Orderly [f] := orderly_cons.mpr ⟨h, orderly_nil⟩

theorem orderly_append {fs gs : List Frame} (h : Orderly fs) (h' : Orderly gs) :
    Orderly (fs ++ gs) :=
  List.forall_mem_append.mpr ⟨h, h'⟩

theorem dispatchLine_orderly {n : Nat} (sh : Shell) (line : Buffer n) (fw : Fw) :
    Orderly (cliDispatchLine sh line fw).push := by
  rcases dispatchLine_cases sh line fw with ⟨rc, -, he⟩
    | ⟨toks, buf, off, -, ⟨-, he⟩ | ⟨argv, hexp, he⟩⟩
  · rw [he]; exact orderly_nil
  · rw [he]; exact orderly_nil
  · rw [he]
    exact orderly_one (expandFrom_inOrder (congrArg (fun r => r.2.2) hexp)).1

theorem endOfLine_orderly (t : Tick) (sh : Shell) (fw : Fw) : Orderly (endOfLine t sh fw).push := by
  unfold endOfLine
  dsimp only
  split
  · exact orderly_one trivial
  · split
    · exact orderly_append (dispatchLine_orderly sh _ _) (orderly_one trivial)
    · exact orderly_one trivial

theorem feedByte_orderly (t : Tick) (sh : Shell) (b : UInt8) (fw : Fw) :
    Orderly (feedByte t sh b fw).push := by
  rcases feedByte_cases t sh b fw with ⟨-, c, -, he⟩ | ⟨-, he | he⟩
  · rw [he]; exact orderly_nil
  · rw [he]; exact endOfLine_orderly t sh fw
  · rw [he]; exact endOfLine_orderly t sh _

theorem cliFeed_orderly (t : Tick) (sh : Shell) (data : List UInt8) (packet : Bool) (fw : Fw) :
    Orderly (cliFeed t sh data packet fw).push := by
  unfold cliFeed
  cases data with
  | nil =>
    dsimp only
    split
    · exact orderly_one trivial
    · exact orderly_nil
  | cons b rest => exact orderly_append (feedByte_orderly t sh b fw) (orderly_one trivial)

section Handlers

variable (sh : Shell) {argv : List Arg} (fw : Fw)

theorem handleRepeat_orderly (h : ArgsInOrder argv) : Orderly (handleRepeat sh argv fw).push := by
  rcases handleRepeat_cases sh argv fw with ⟨rc, he⟩ | ⟨name, count, a, rest, n, rfl, -, he⟩
  · rw [he]
    exact orderly_nil
  · rw [he]
    exact orderly_one (h.sublist ((List.sublist_cons_self _ _).trans (List.sublist_cons_self _ _)))

theorem handleWhile_orderly (h : ArgsInOrder argv) : Orderly (handleWhile sh argv fw).push := by
  have hargs := h.sublist (List.drop_sublist 1 argv)
  rcases handleWhile_cases sh argv fw with ⟨rc, he⟩ | ⟨i, -, -, -, he⟩
  · rw [he]
    exact orderly_nil
  · rw [he]
    exact orderly_one ⟨hargs.sublist (List.take_sublist ..), hargs.sublist (List.drop_sublist ..)⟩

/-- The branches are two parts of what stands behind `then`, or there is only one. -/
theorem ifBranches_inOrder {after : List Arg} (h : ArgsInOrder after)
    (hne : (ifBranches fw after).1 ≠ []) :
    ArgsInOrder (ifBranches fw after).1 ∧ ArgsInOrder (ifBranches fw after).2 ∧
      (ifBranches fw after).1 ≠ (ifBranches fw after).2 := by
  unfold ifBranches at hne ⊢
  split at hne
  · exact ⟨h, List.Pairwise.nil, hne⟩
  · next j _ =>
    refine ⟨h.sublist (List.take_sublist ..), h.sublist (List.drop_sublist ..), ?_⟩
    refine ArgsInOrder.ne (h.sublist ?_) hne
    have hdrop : (after.drop (j + 1)).Sublist (after.drop j) := by
      rw [← List.drop_drop]
      exact List.drop_sublist 1 _
    calc (after.take j ++ after.drop (j + 1)).Sublist (after.take j ++ after.drop j) :=
      hdrop.append_left _
      _ = after := List.take_append_drop j after

theorem handleIf_orderly (h : ArgsInOrder argv) : Orderly (handleIf sh argv fw).push := by
  have hargs := h.sublist (List.drop_sublist 1 argv)
  rcases handleIf_cases sh argv fw with ⟨rc, he⟩ | ⟨i, -, -, hnil, he⟩
  · rw [he]
    exact orderly_nil
  · have hafter := hargs.sublist (List.drop_sublist (i + 1) (argv.drop 1))
    rw [he]
    exact orderly_cons.mpr ⟨hargs.sublist (List.take_sublist ..),
      orderly_one (ifBranches_inOrder fw hafter hnil)⟩

theorem handleSet_orderly (argv : List Arg) : Orderly (handleSet argv fw).push := by
  obtain ⟨vars, rc, he⟩ := handleSet_eq argv fw
  rw [he]
  exact orderly_nil

theorem handleUnset_orderly (argv : List Arg) : Orderly (handleUnset argv fw).push := by
  obtain ⟨vars, rc, he⟩ := handleUnset_eq argv fw
  rw [he]
  exact orderly_nil

theorem handleRun_orderly (argv : List Arg) : Orderly (handleRun sh argv fw).push := by
  rcases handleRun_cases sh argv fw with ⟨rc, he⟩ | ⟨-, name, script, -, he | ⟨shell, -, he⟩⟩
  · rw [he]; exact orderly_nil
  · rw [he]; exact orderly_nil
  · rw [he]; exact orderly_one trivial

theorem handleScript_orderly (t : Tick) (argv : List Arg) :
    Orderly (handleScript t sh argv fw).push := by
  rcases handleScript_cases t sh argv fw with ⟨rc, he⟩ | ⟨name, he⟩ | he
    | ⟨flash, rc, he⟩ | ⟨name, he⟩
  · rw [he]; exact orderly_nil
  · rw [he]; exact orderly_nil
  · rw [he]; exact orderly_nil
  · rw [he]; exact orderly_nil
  · rw [he]; exact orderly_one trivial

theorem cliDispatchArgv_orderly (t : Tick) (h : ArgsInOrder argv) :
    Orderly (cliDispatchArgv t sh argv fw).push := by
  unfold cliDispatchArgv
  cases argv with
  | nil => exact orderly_nil
  | cons a args =>
    dsimp only
    cases cliCommandFind (fw.str a) with
    | none => exact orderly_nil
    | some handler =>
      refine orderly_append ?_ (orderly_one trivial)
      cases handler with
      | cmdRepeat => exact handleRepeat_orderly sh fw h
      | cmdWhile => exact handleWhile_orderly sh fw h
      | cmdIf => exact handleIf_orderly sh fw h
      | cmdRun => exact handleRun_orderly sh fw _
      | cmdScript => exact handleScript_orderly sh fw t _
      | cmdSet => exact handleSet_orderly fw _
      | cmdUnset => exact handleUnset_orderly fw _
      | leaf => exact orderly_one trivial

end Handlers

theorem runFrame_orderly {t : Tick} {f : Frame} {fw : Fw} {rc : Int} {r : Ran}
    (h : runFrame t f fw rc = some r) (hf : f.InOrder) : Orderly r.push := by
  unfold runFrame at h
  -- a loop or a condition goes on with the parts it was made of, which are in order
  cases f with
  | feed sh data packet => rw [← Option.some.inj h]; exact cliFeed_orderly t sh data packet fw
  | lineDone sh => rw [← Option.some.inj h]; exact orderly_nil
  | dispatch sh argv => rw [← Option.some.inj h]; exact cliDispatchArgv_orderly sh fw t hf
  | handled => rw [← Option.some.inj h]; exact orderly_nil
  | repeatNext sh sub i n =>
    rw [← Option.some.inj h, repeatNext]
    split
    · exact orderly_cons.mpr ⟨hf, orderly_one hf⟩
    · exact orderly_nil
  | repeatCheck sh sub i n =>
    rw [← Option.some.inj h, repeatCheck]
    split
    · exact orderly_nil
    · exact orderly_one hf
  | whileNext sh cond body i =>
    rw [← Option.some.inj h, whileNext]
    split
    · exact orderly_cons.mpr ⟨hf.1, orderly_one hf⟩
    · exact orderly_nil
  | whileCond sh cond body i =>
    rw [← Option.some.inj h, whileCond]
    split
    · exact orderly_nil
    · exact orderly_cons.mpr ⟨hf.2, orderly_one hf⟩
  | whileBody sh cond body i =>
    rw [← Option.some.inj h, whileBody]
    split
    · exact orderly_nil
    · exact orderly_one hf
  | ifCond sh thenArgv elseArgv =>
    rw [← Option.some.inj h, ifCond]
    split
    · exact orderly_one hf.1
    · split
      · exact orderly_one hf.2.1
      · exact orderly_nil
  | runNext sh script off =>
    rw [← Option.some.inj h, runNext]
    split
    · dsimp only
      split
      · exact orderly_one trivial
      · exact orderly_append (dispatchLine_orderly sh _ fw) (orderly_one trivial)
    · exact orderly_nil
  | fetch name => exact absurd h (by simp)
  | leaf sh argv => exact absurd h (by simp)

/-- **What is to be dispatched stays in order.** -/
theorem step_orderly {m m' : Machine} {e : Event} (hs : m.step e = some m') (h : Orderly m.stack) :
    Orderly m'.stack := by
  have hbelow : ∀ {f : Frame} {below : List Frame}, m.stack = f :: below → Orderly below := by
    intro f below hstack
    rw [hstack] at h
    exact (orderly_cons.mp h).2
  cases step_cases hs with
  | @tick t f below r hstack hrun =>
    have hf := h
    rw [hstack] at hf
    exact orderly_append (runFrame_orderly hrun (orderly_cons.mp hf).1) (hbelow hstack)
  | linkUp => exact h
  | subscribe _ => exact h
  | linkDown => exact h
  | rx _ => exact orderly_cons.mpr ⟨trivial, h⟩
  | usb _ => exact orderly_cons.mpr ⟨trivial, h⟩
  | usbFirst _ => exact orderly_cons.mpr ⟨trivial, h⟩
  | fire _ => exact orderly_append (dispatchLine_orderly .bg _ m.fw) h
  | chunk _ _ => exact h
  | chunkBelow _ _ _ => exact h
  | @httpDone t ok name below hstack _ =>
    obtain ⟨flash, rc, hdone⟩ := fetchDone_fw t ok name m.fw
    rw [hdone]
    exact hbelow hstack
  | httpGet _ => exact h
  | leafDone hstack => exact hbelow hstack
  | elsewhere _ => exact h

/-! ## What becomes of a level that is read -/

/-- The arguments of the `gpio` that is innermost. `latch` sleeps, so it is left to the events
that wake a command. -/
def Machine.gpioCall (m : Machine) : Option (List (List UInt8)) :=
  match m.stack with
  | .leaf _ argv :: _ =>
    let args := argv.map m.fw.str
    if args.head? = some (ascii "gpio") ∧ args[2]? ≠ some (ascii "latch") then some args else none
  | _ => none

/-- `if` or `while` goes on, behind its condition. -/
def Frame.decides : Frame → Bool
  | .ifCond _ _ _ => true
  | .whileCond _ _ _ _ => true
  | _ => false

/-- `if` or `while`, the level that its condition has read, and what it does next. -/
structure Decision where
  frame : Frame
  level : Bool
  next : List Frame

/-- It goes by the level: `if` dispatches the one command or the other, and `while` its body, or
it returns. -/
def Decision.Right (d : Decision) : Prop :=
  match d.frame with
  | .ifCond sh thenArgv elseArgv =>
    d.next = if d.level then [.dispatch sh thenArgv] else if elseArgv ≠ [] then
      [.dispatch sh elseArgv] else []
  | .whileCond sh cond body i =>
    d.next = if d.level then [.dispatch sh body, .whileBody sh cond body i] else []
  | _ => True

/-- What a step decides, when a level has just been read. -/
def Machine.decision (m : Machine) (e : Event) (read : Option Bool) : Option Decision :=
  match e, m.stack, read with
  | .tick t, f :: _, some level =>
    if f.decides then (runFrame t f m.fw m.rc).map fun r => ⟨f, level, r.push⟩ else none
  | _, _, _ => none

/-- The level is still what the command that returns last has read: its dispatch returns. -/
def Machine.readAfter (m : Machine) (e : Event) (read : Option Bool) : Option Bool :=
  match e, m.stack with
  | .tick _, .handled :: _ => read
  | _, _ => none

/-- The machine and the pads, and what has been decided. -/
structure PinWorld where
  m : Machine
  pads : Pads
  /-- What the command that has just returned has read. -/
  read : Option Bool
  /-- The last one first. -/
  decisions : List Decision

/-- What can happen. -/
inductive PinEvent where
  /-- `gpio` runs. Its pin has this level, if it looks. -/
  | gpio (level : Bool)
  /-- Anything else, which can leave the pads in any state. -/
  | other (e : Event) (pads : Pads)

def PinWorld.next (w : PinWorld) : PinEvent → Option PinWorld
  | .gpio level =>
    match w.m.gpioCall with
    | none => none
    | some argv =>
      let r := handleGpio argv level w.pads
      (w.m.step (.leafDone r.rc)).map fun m' =>
        { m := m', pads := r.pads, read := r.printed, decisions := w.decisions }
  | .other e pads =>
    -- `gpio` does not wait for anything
    if w.m.gpioCall.isSome then none
    else
      (w.m.step e).map fun m' =>
        { m := m', pads := pads, read := w.m.readAfter e w.read,
          decisions := (w.m.decision e w.read).toList ++ w.decisions }

def PinWorld.boot (flash : PicoBLE.Ota.Flash) : PinWorld :=
  { m := Machine.boot flash, pads := .reset, read := none, decisions := [] }

def pinWorlds : LTS PinWorld PinEvent := LTS.ofFun (fun w => ∃ flash, w = .boot flash) PinWorld.next

/-- A condition that has returned `CLI_OK` is met, so only a high level is heeded. -/
theorem decision_ok {t : Tick} {f : Frame} {fw : Fw} {r : Ran}
    (hrun : runFrame t f fw cliOk = some r) (hf : f.InOrder) (hd : f.decides = true)
    (level : Bool) :
    (Decision.mk f level r.push).Right ↔ level = true := by
  cases f with
  | ifCond sh thenArgv elseArgv =>
    obtain rfl := Option.some.inj hrun
    unfold ifCond Decision.Right
    rw [if_pos rfl]
    cases level with
    | true => exact ⟨fun _ => rfl, fun _ => rfl⟩
    | false =>
      refine ⟨fun h => ?_, fun h => absurd h Bool.false_ne_true⟩
      dsimp only at h
      rw [if_neg Bool.false_ne_true] at h
      split at h
      · -- they are different commands
        have heq := (List.cons.inj h).1
        exact absurd (Frame.dispatch.inj heq).2 hf.2.2
      · exact absurd h (by simp [Fw.goto])
  | whileCond sh cond body i =>
    obtain rfl := Option.some.inj hrun
    unfold whileCond Decision.Right
    rw [if_neg (not_not.mpr rfl)]
    cases level with
    | true => exact ⟨fun _ => rfl, fun _ => rfl⟩
    | false =>
      refine ⟨fun h => ?_, fun h => absurd h Bool.false_ne_true⟩
      dsimp only at h
      rw [if_neg Bool.false_ne_true] at h
      exact absurd h (by simp)
  | _ => exact absurd hd (by simp [Frame.decides])

/-- A level can only be read with success. -/
structure PinInv (w : PinWorld) : Prop where
  order : Orderly w.m.stack
  ok : ∀ level, w.read = some level → w.m.rc = cliOk
  decisions : ∀ d ∈ w.decisions, d.Right ↔ d.level = true

theorem PinInv.next {w w' : PinWorld} {e : PinEvent} (h : PinInv w) (hs : w.next e = some w') :
    PinInv w' := by
  cases e with
  | gpio level =>
    rw [PinWorld.next] at hs
    cases hcall : w.m.gpioCall with
    | none =>
      rw [hcall] at hs
      exact absurd hs (by simp)
    | some argv =>
      rw [hcall] at hs
      obtain ⟨m', hstep, rfl⟩ := Option.map_eq_some_iff.mp hs
      refine ⟨step_orderly hstep h.order, fun l hl => ?_, h.decisions⟩
      obtain ⟨hok, -⟩ := handleGpio_printed rfl hl
      cases step_cases hstep with
      | leafDone _ => exact hok
  | other e pads =>
    rw [PinWorld.next] at hs
    split at hs
    · exact absurd hs (by simp)
    · obtain ⟨m', hstep, rfl⟩ := Option.map_eq_some_iff.mp hs
      refine ⟨step_orderly hstep h.order, fun level hl => ?_, fun d hd => ?_⟩
      · -- the dispatch returns what the handler did
        dsimp only at hl
        unfold Machine.readAfter at hl
        split at hl
        · next hstack =>
          obtain ⟨t, r, hrun, rfl⟩ := step_runs hstep hstack rfl
          obtain rfl := Option.some.inj hrun
          exact h.ok level hl
        · exact absurd hl (by simp)
      · rcases List.mem_append.mp hd with hd | hd
        · have hdec := Option.mem_toList.mp hd
          unfold Machine.decision at hdec
          split at hdec
          · next f below level hstack hread _ =>
            split at hdec
            · next hdecides =>
              obtain ⟨r, hrun, rfl⟩ := Option.map_eq_some_iff.mp hdec
              rw [h.ok level hread] at hrun
              have hf := h.order
              rw [hstack] at hf
              exact decision_ok hrun (orderly_cons.mp hf).1 hdecides level
            · exact absurd hdec (by simp)
          · exact absurd hdec (by simp)
        · exact h.decisions d hd

theorem pinInv_reachable {w : PinWorld} (h : pinWorlds.Reachable w) : PinInv w := by
  refine LTS.ReachableWhen.inv (P := PinInv) h (fun w hi => ?_) fun w e w' hinv _ hs => hinv.next hs
  obtain ⟨flash, rfl⟩ := hi
  exact ⟨orderly_nil, fun level hl => absurd hl (by simp [PinWorld.boot]), fun d hd =>
    absurd hd List.not_mem_nil⟩

/-- **A pin as a condition is heeded exactly if it reads high**, in `if` and in every turn of
`while`. -/
theorem pin_conditions {w : PinWorld} (h : pinWorlds.Reachable w) {d : Decision}
    (hd : d ∈ w.decisions) :
    d.Right ↔ d.level = true := (pinInv_reachable h).decisions d hd

/-- `if gpio 2 read then echo on else echo off`, over BLE, up to its decision. -/
def buttonRun (level : Bool) : List PinEvent :=
  let line := "if gpio 2 read then echo on else echo off"
  let typing :=
    [Event.linkUp, .subscribe, .rx (ascii line)] ++ List.replicate (line.length + 4) (.tick calm)
  typing.map (.other · .reset) ++ [.gpio level, .other (.tick calm) .reset,
    .other (.tick calm) .reset]

theorem button_pressed : ∃ w, pinWorlds.Reachable w ∧ w.m.callArgs = [ascii "on"] ∧
    ∃ d ∈ w.decisions, d.level = true ∧ (d.Right ↔ d.level = true) := by
  have hend : (LTS.exec PinWorld.next (fun _ _ => True) (.boot erased) (buttonRun true)).map
      (fun w => (w.m.callArgs, w.decisions.map Decision.level)) = some ([ascii "on"], [true]) := by
    decide +kernel
  obtain ⟨w, hw, hview⟩ := Option.map_eq_some_iff.mp hend
  obtain ⟨hargs, hlevels⟩ := Prod.mk.inj hview
  have hreach : pinWorlds.Reachable w := (LTS.runs_exec hw).reachableWhen (.init ⟨erased, rfl⟩)
  obtain ⟨d, hd, hlevel⟩ := List.mem_map.mp (show true ∈ w.decisions.map Decision.level by
    rw [hlevels]
    exact List.mem_cons_self)
  exact ⟨w, hreach, hargs, d, hd, hlevel, pin_conditions hreach hd⟩

/-- The pin is low, and the light goes on. -/
theorem button_released : ∃ w, pinWorlds.Reachable w ∧ w.m.callArgs = [ascii "on"] ∧
    ∃ d ∈ w.decisions, d.level = false ∧ ¬ d.Right := by
  have hend : (LTS.exec PinWorld.next (fun _ _ => True) (.boot erased) (buttonRun false)).map
      (fun w => (w.m.callArgs, w.decisions.map Decision.level)) = some ([ascii "on"], [false]) := by
    decide +kernel
  obtain ⟨w, hw, hview⟩ := Option.map_eq_some_iff.mp hend
  obtain ⟨hargs, hlevels⟩ := Prod.mk.inj hview
  have hreach : pinWorlds.Reachable w := (LTS.runs_exec hw).reachableWhen (.init ⟨erased, rfl⟩)
  obtain ⟨d, hd, hlevel⟩ := List.mem_map.mp (show false ∈ w.decisions.map Decision.level by
    rw [hlevels]
    exact List.mem_cons_self)
  refine ⟨w, hreach, hargs, d, hd, hlevel, fun hright => ?_⟩
  exact Bool.false_ne_true
    (hlevel.symm.trans (((pinInv_reachable hreach).decisions d hd).mp hright))

end PicoBLE.Cli
