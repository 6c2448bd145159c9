import PicoBLE.Cli.Fetch
import PicoBLE.Cli.ScriptLines
import PicoBLE.Cli.ShellSteps

/-!
# From the keyboard to `run`

`script save` appends each line it gets and a newline to the buffer, and `.end`
stores the buffer. `run` takes the text apart again, with limits of its own:
the array of `run` has room for any line that can be typed, so it finds the
lines that went in, less the empty ones, and dispatches those that are neither
blank nor comments.
-/

namespace PicoBLE.Cli

open CString (ascii)
open PicoBLE.Storage

/-! ## What is stored -/

/-- A line that `cli_feed` can hand over, and that goes into the buffer: neither `.end` nor
`.abort`. -/
structure Typable (line : List UInt8) : Prop where
  length : line.length ≤ cliLineMax - 1
  chars : ∀ c ∈ line, isNewline c = false ∧ c ≠ 0
  notEnd : skipWs line ≠ ascii ".end"
  notAbort : skipWs line ≠ ascii ".abort"

/-- A capture under this name has got these lines. Between them, anything can happen that leaves
the buffer and what belongs to it alone. -/
inductive Captures (name : List UInt8) : List (List UInt8) → Fw → Prop where
  | begun {sh : Shell} {fw fw' : Fw} (hgo : saveRefused fw name = false)
      (hcap : fw'.cap = (fw.beginCapture sh name).cap) : Captures name [] fw'
  | line {sh : Shell} {t : Tick} {lines : List (List UInt8)} {line : List UInt8} {fw fw' : Fw}
      (h : Captures name lines fw) (hcap : fw'.cap = (captureLineCb t sh line fw).cap) :
      Captures name (lines ++ [line]) fw'

/-- Lines one after the other. -/
theorem Captures.typed {name : List UInt8} {lines : List (List UInt8)} {fw : Fw}
    (h : Captures name lines fw) (t : Tick) (sh : Shell) (more : List (List UInt8)) :
    Captures name (lines ++ more) (more.foldl (fun fw line => captureLineCb t sh line fw) fw) := by
  induction more generalizing lines fw with
  | nil =>
    rw [List.append_nil]
    exact h
  | cons line more ih =>
    rw [List.append_cons]
    exact ih (h.line rfl)

theorem textOf_append (lines : List (List UInt8)) (line : List UInt8) :
    textOf (lines ++ [line]) = textOf lines ++ (line ++ [10]) := by
  rw [textOf, List.flatMap_append, List.flatMap_singleton]
  rfl

/-- A line that fits is appended. -/
theorem captureLineCb_append {t : Tick} {sh : Shell} {line : List UInt8} {fw : Fw}
    (h : Typable line) (hfit : fw.cap.len + line.length + 1 ≤ scriptBodyMax) :
    captureLineCb t sh line fw = { fw with cap := fw.cap.append line } := by
  rw [captureLineCb, if_neg h.notEnd, if_neg h.notAbort, if_neg (Nat.not_lt.mpr hfit)]

/-- **The buffer holds the lines**, each with its newline, as long as there is room for them. -/
theorem Captures.text {name : List UInt8} {lines : List (List UInt8)} {fw : Fw}
    (h : Captures name lines fw) (hlines : ∀ line ∈ lines, Typable line)
    (hfit : (textOf lines).length ≤ scriptBodyMax) :
    fw.cap.name = name ∧ fw.cap.len = (textOf lines).length ∧ fw.cap.text = textOf lines := by
  induction h with
  | @begun sh fw fw' hgo hcap =>
    have hname : name.length ≤ scriptNameMax := by
      unfold saveRefused at hgo
      simpa using (Bool.or_eq_false_iff.mp hgo).2
    rw [hcap]
    exact ⟨List.take_of_length_le hname, rfl, rfl⟩
  | @line sh t lines line fw fw' h hcap ih =>
    have htotal : (textOf lines).length + line.length + 1 ≤ scriptBodyMax := by
      rw [textOf_append, List.length_append, List.length_append] at hfit
      exact hfit
    obtain ⟨hname, hlen, htext⟩ := ih (fun l hl => hlines l (List.mem_append_left _ hl)) (by omega)
    have hroom : fw.cap.len + line.length + 1 ≤ scriptBodyMax := by rw [hlen]; exact htotal
    rw [captureLineCb_append (hlines line (by simp)) hroom] at hcap
    rw [hcap]
    refine ⟨hname, ?_, ?_⟩
    · rw [textOf_append, List.length_append, List.length_append, ← hlen]
      rfl
    · rw [textOf_append, ← htext]
      exact Capture.append_text hroom

/-- What `.end` stores. -/
theorem Captures.stored {name : List UInt8} {lines : List (List UInt8)} {fw : Fw}
    (h : Captures name lines fw) (hlines : ∀ line ∈ lines, Typable line)
    (hfit : (textOf lines).length ≤ scriptBodyMax) {t : Tick} {sh : Shell} {last : List UInt8}
    (hend : skipWs last = ascii ".end")
    (hsaved : (scriptsSave t.flashOk fw.cap.name (some fw.cap.text) fw.flash).2 = true) :
    scriptsLoad name none (captureLineCb t sh last fw).flash.image = some (textOf lines) := by
  obtain ⟨hname, -, htext⟩ := h.text hlines hfit
  have hload := scriptsSave_load hsaved
  rw [captureLineCb, if_pos hend]
  show scriptsLoad name none (scriptsSave t.flashOk fw.cap.name (some fw.cap.text)
    fw.flash).1.image = _
  rw [hname, htext] at hload ⊢
  exact hload

/-! ## What is run -/

/-- The lines of the text are the lines that went in, less the empty ones. -/
theorem physicalLines_textOf {lines : List (List UInt8)}
    (h : ∀ line ∈ lines, ∀ c ∈ line, isNewline c = false) :
    physicalLines (textOf lines) = lines.filter fun line => line ≠ [] := by
  induction lines with
  | nil => rfl
  | cons line lines ih =>
    have htext : textOf (line :: lines) = line ++ (10 :: textOf lines) := by
      rw [textOf, List.flatMap_cons, List.append_assoc]
      rfl
    have hten : ∀ c ∈ (10 :: textOf lines).head?, isNewline c = true := by
      intro c hc
      obtain rfl := Option.some.inj hc
      rfl
    rw [htext, physicalLines_append (h line List.mem_cons_self) hten,
      physicalLines_newline rfl, ih fun l hl => h l (List.mem_cons_of_mem _ hl), List.filter_cons]
    by_cases hnil : line = []
    · rw [if_pos hnil, if_neg (by simp [hnil])]
      rfl
    · rw [if_neg hnil, if_pos (by simp [hnil])]
      rfl

/-- A line that was typed goes out as it is, if it is a command. -/
theorem Typable.commands {line : List UInt8} (h : Typable line) :
    (lineCommands line).map dispatched = if isCommandLine line then [line] else [] := by
  have hnul : 0 ∉ line := fun hmem => (h.chars 0 hmem).2 rfl
  rw [lineCommands_short h.length, skips_eq hnul]
  cases isCommandLine line with
  | true =>
    exact congrArg (fun s => [s]) ((dispatched_eq h.length).trans (CString.ofBuffer_eq hnul))
  | false => rfl

/-- **What `run` dispatches of a text that was typed.** -/
theorem scriptCommands_textOf {lines : List (List UInt8)} (h : ∀ line ∈ lines, Typable line) :
    (scriptCommands (textOf lines)).map dispatched = lines.filter isCommandLine := by
  rw [scriptCommands_lines, physicalLines_textOf fun line hline c hc =>
    ((h line hline).chars c hc).1, List.map_flatMap, filter_flatMap isCommandLine]
  induction lines with
  | nil => rfl
  | cons line lines ih =>
    have hhead : (if decide (line ≠ []) = true then [line] else []).flatMap
        (fun l => (lineCommands l).map dispatched) = if isCommandLine line then [line] else [] := by
      by_cases hnil : line = []
      · subst hnil
        rfl
      · rw [if_pos (by simpa using hnil), List.flatMap_singleton]
        exact (h line List.mem_cons_self).commands
    have htail := ih fun l hl => h l (List.mem_cons_of_mem _ hl)
    rw [List.flatMap_cons, ← htail, ← hhead, ← List.flatMap_append, List.filter_cons]
    split <;> rfl

/-! ## Runs of the script -/

/-- The name that a step calls `run` with. -/
def Machine.runName (m : Machine) : Event → Option (List UInt8)
  | .tick _ =>
    match m.stack.head?.bind fun f => f.calling m.fw with
    | some (_, _ :: name :: _, .cmdRun) => some (m.fw.str name)
    | _ => none
  | _ => none

/-- Both readers of the store find the same text. -/
theorem scriptsOpen_loaded {name body : List UInt8} {f : NorFlash.Image}
    (hload : scriptsLoad name none f = some body) :
    ∃ script, scriptsOpen false name f = some script ∧ script.text f = body := by
  unfold scriptsLoad at hload
  unfold scriptsOpen
  rw [if_neg Bool.false_ne_true]
  split at hload
  · exact absurd hload (by simp)
  · next slot hslot =>
    split at hload
    · exact absurd hload (by simp)
    · exact ⟨_, rfl, Option.some.inj hload⟩

/-- **`run` starts** when nothing is in progress and the script can be loaded. -/
theorem handleRun_starts {sh : Shell} {c a : Arg} {rest : List Arg} {fw : Fw} {body : List UInt8}
    (hidle : fw.Idle) (hload : scriptsLoad (fw.str a) none fw.flash.image = some body) :
    ∃ script, script.text fw.flash.image = body ∧
    (handleRun sh (c :: a :: rest) fw).push = [.runNext sh script 0] ∧
      (handleRun sh (c :: a :: rest) fw).fw.running = true ∧
      (handleRun sh (c :: a :: rest) fw).fw.flash = fw.flash := by
  obtain ⟨script, hopen, htext⟩ := scriptsOpen_loaded hload
  -- there is no frame yet, so there is room for one
  obtain ⟨shell, hpush⟩ : ∃ shell, shellPushArgs (((c :: a :: rest).drop 1).map fw.str) fw.shell =
      some shell := by
    rw [shellPushArgs, hidle.frames, if_neg (by decide)]
    exact ⟨_, rfl⟩
  refine ⟨script, htext, ?_⟩
  unfold handleRun
  dsimp only
  rw [if_neg (by rw [hidle.running]; exact Bool.false_ne_true), hidle.scriptOpen, hopen]
  dsimp only
  rw [hpush]
  exact ⟨rfl, rfl, rfl⟩

/-- The step that calls it enters the loop, with the text that can be loaded. -/
theorem runName_starts {m m' : Machine} {e : Event} {name body : List UInt8}
    (hname : m.runName e = some name) (hload : scriptsLoad name none m.fw.flash.image = some body)
    (hs : m.step e = some m') (hidle : m.fw.Idle) :
    m'.fw.running = true ∧ m'.scriptText = body := by
  unfold Machine.runName at hname
  cases step_cases hs with
  | @tick t f below r hstack hrun =>
    rw [hstack] at hname
    dsimp only [List.head?_cons, Option.bind_some] at hname
    split at hname
    · next sh c a rest hcall =>
      obtain rfl := Option.some.inj hname
      -- the frame is the call of `run`
      cases f with
      | dispatch sh' argv =>
        obtain ⟨h, hfind, heq⟩ := Option.map_eq_some_iff.mp hcall
        obtain ⟨rfl, hargs⟩ := Prod.mk.inj heq
        obtain ⟨rfl, rfl⟩ := Prod.mk.inj hargs
        have hcmd : cliCommandFind (m.fw.str c) = some .cmdRun := hfind
        have hr : r = (handleRun sh' (c :: a :: rest) m.fw).called := by
          rw [runFrame, cliDispatchArgv, hcmd] at hrun
          exact (Option.some.inj hrun).symm
        subst hr
        obtain ⟨script, htext, hpush, hrunning, hflash⟩ :=
          @handleRun_starts sh' c a rest _ _ hidle hload
        refine ⟨hrunning, ?_⟩
        rw [Machine.scriptText, Ran.resume, Ran.called, hpush]
        show script.text (handleRun sh' (c :: a :: rest) m.fw).fw.flash.image = body
        rw [hflash, htext]
      | _ => exact absurd hcall (by simp [Frame.calling])
    · exact absurd hname (by simp)
  | _ => exact absurd hname (by simp)

/-- Between two scripts nothing is open, and no arguments are left over. -/
theorem idle_reachable {ok : RunWorld → Event → Prop} {w : RunWorld}
    (h : runWorlds.ReachableWhen ok w) (hstopped : w.m.fw.running = false) : w.m.fw.Idle := by
  have hheld : ∃ args, Held args w.m := by
    refine h.inv (P := fun w => ∃ args, Held args w.m) ?_ fun w e w' hheld _ hs => ?_
    · rintro _ ⟨flash, rfl⟩
      exact ⟨[], .idle rfl rfl rfl rfl⟩
    · obtain ⟨args, hheld⟩ := hheld
      exact ⟨_, hheld.step (next_eq hs).1⟩
  obtain ⟨args, hheld⟩ := hheld
  exact hheld.idle_fw hstopped

/-- While the loop is in progress, what was opened stays on record. -/
theorem runs_opened {w w' : RunWorld} {as : List Event}
    (h : runWorlds.Runs (fun w e => SlotKept w.m e ∧ w.m.fw.running = true) w as w') :
    w'.opened = w.opened := by
  induction h with
  | nil => rfl
  | cons hok hs _ ih => exact ih.trans (next_goes_on hs (.inl hok.2)).1

/-- **A run of a script dispatches the lines of what is stored** under its name. -/
theorem run_stored {w w' : RunWorld} {e : Event} {name body : List UInt8}
    (hw : runWorlds.ReachableWhen (fun w e => SlotKept w.m e) w) (hname : w.m.runName e = some name)
    (hload : scriptsLoad name none w.m.fw.flash.image = some body)
    (hstopped : w.m.fw.running = false) (hs : w.next e = some w') : w'.m.fw.running = true ∧
    ∀ as w'' sh script off below,
      runWorlds.Runs (fun w e => SlotKept w.m e ∧ w.m.fw.running = true) w' as w'' →
      w''.m.stack = .runNext sh script off :: below → script.bodyLen ≤ off →
      w''.sent = scriptCommands body := by
  obtain ⟨hstep, hghost⟩ := next_eq hs
  obtain ⟨hbusy, htext⟩ := runName_starts hname hload hstep (idle_reachable hw hstopped)
  refine ⟨hbusy, fun as w'' sh script off below hrun hstack hoff => ?_⟩
  have hopened : w'.opened = body := by
    rcases hghost with ⟨-, -, hopened, -⟩ | ⟨hno, -⟩
    · exact hopened.trans htext
    · exact absurd ⟨hstopped, hbusy⟩ hno
  -- nothing is running before, so no slot is in use
  have hkept : SlotKept w.m e := by
    rcases runInv_reachable hw with ⟨-, -, hnil⟩ | ⟨hrunning, -⟩
    · intro slot _ loop hloop
      rw [hnil] at hloop
      exact absurd hloop List.not_mem_nil
    · exact absurd (hstopped.symm.trans hrunning) Bool.false_ne_true
  have hreach := (hrun.mono fun _ _ hok => hok.1).reachableWhen (hw.tail hkept hs)
  rw [(run_intact hreach).2 sh script off below hstack hoff, runs_opened hrun, hopened]

/-- A comment, an empty line and a command. -/
def lightLines : List (List UInt8) := [ascii "# light", [], ascii "gpio 25 high"]

/-- They have been typed over BLE. -/
def lightTyped : Fw :=
  lightLines.foldl (fun fw line => captureLineCb calm .ble line fw)
    ((Fw.boot erased).beginCapture .ble (ascii "hi"))

/-- And `.end`. -/
def lightSaved : Fw := captureLineCb calm .ble (ascii ".end") lightTyped

/-- The loop of `run` is through. -/
def Machine.loopDone (m : Machine) : Bool :=
  match m.stack with
  | .runNext _ script off :: _ => script.bodyLen ≤ off
  | _ => false

theorem lightTyped_captures : Captures (ascii "hi") lightLines lightTyped :=
  (@Captures.begun _ .ble (Fw.boot erased) _ (by decide) rfl).typed calm .ble lightLines

theorem lightLines_typable : ∀ line ∈ lightLines, Typable line := by
  intro line hline
  simp only [lightLines, List.mem_cons, List.not_mem_nil, or_false] at hline
  rcases hline with rfl | rfl | rfl <;> exact ⟨by decide, by decide +kernel, by decide, by decide⟩

end PicoBLE.Cli
