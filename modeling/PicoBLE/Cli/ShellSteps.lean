import PicoBLE.Cli.RunScript

/-!
# What a step does to the shell state

The positional arguments and `$?` are written in few places: `run` pushes a frame
and pops it again, and `cli_dispatch_argv` sets the status. `Frame.shellAfter`
says which frame of the machine does what. Everything else leaves them alone.

From that, what `run` holds on to: `g_running`, `g_open` and one frame of arguments
come and go together with its loop.
-/

namespace PicoBLE.Cli

open PicoBLE.System (bindTargetMax)
open PicoBLE.Storage (OpenScript scriptsOpen)

/-! ## One frame -/

/-- The shell state that a frame leaves when it runs. -/
def Frame.shellAfter (f : Frame) (fw : Fw) (rc : Int) : ShellState :=
  match f with
  | .handled => { fw.shell with status := rc }
  | .dispatch sh argv@(name :: _) =>
    match cliCommandFind (fw.str name) with
    | none => { fw.shell with status := cliErrArg }
    | some .cmdRun => (handleRun sh argv fw).fw.shell
    | some _ => fw.shell
  | .runNext _ script off => if off < script.bodyLen then fw.shell else shellPopArgs fw.shell
  | _ => fw.shell

theorem dispatchLine_shell {n : Nat} (sh : Shell) (line : Buffer n) (fw : Fw) :
    (cliDispatchLine sh line fw).fw.shell = fw.shell := by
  rcases dispatchLine_cases sh line fw with ⟨rc, -, he⟩
    | ⟨toks, buf, off, -, ⟨-, he⟩ | ⟨argv, -, he⟩⟩
  · rw [he]; rfl
  · rw [he]; rfl
  · rw [he]; rfl

theorem captureLineCb_shell (t : Tick) (sh : Shell) (line : List UInt8) (fw : Fw) :
    (captureLineCb t sh line fw).shell = fw.shell := by
  rcases captureLineCb_cases t sh line fw with ⟨-, he⟩ | ⟨-, he⟩ | ⟨-, -, he⟩
  · rw [he]; rfl
  · rw [he]; rfl
  · rw [he]

theorem endOfLine_shell (t : Tick) (sh : Shell) (fw : Fw) :
    (endOfLine t sh fw).fw.shell = fw.shell := by
  unfold endOfLine
  dsimp only
  split
  · exact captureLineCb_shell t sh _ _
  · split
    · exact dispatchLine_shell sh _ _
    · rfl

theorem feedByte_shell (t : Tick) (sh : Shell) (b : UInt8) (fw : Fw) :
    (feedByte t sh b fw).fw.shell = fw.shell := by
  rcases feedByte_cases t sh b fw with ⟨-, c, -, he⟩ | ⟨-, he | he⟩
  · rw [he]; rfl
  · rw [he]; exact endOfLine_shell t sh fw
  · rw [he]; exact endOfLine_shell t sh _

theorem cliFeed_shell (t : Tick) (sh : Shell) (data : List UInt8) (packet : Bool) (fw : Fw) :
    (cliFeed t sh data packet fw).fw.shell = fw.shell := by
  unfold cliFeed
  cases data with
  | nil =>
    dsimp only
    split <;> rfl
  | cons b rest => exact feedByte_shell t sh b fw

theorem handleScript_shell (t : Tick) (sh : Shell) (argv : List Arg) (fw : Fw) :
    (handleScript t sh argv fw).fw.shell = fw.shell := by
  rcases handleScript_cases t sh argv fw with ⟨rc, he⟩ | ⟨name, he⟩ | he
    | ⟨flash, rc, he⟩ | ⟨name, he⟩
  all_goals
    rw [he]
    rfl

theorem handleRepeat_shell (sh : Shell) (argv : List Arg) (fw : Fw) :
    (handleRepeat sh argv fw).fw.shell = fw.shell := by
  rcases handleRepeat_cases sh argv fw with ⟨rc, he⟩ | ⟨name, count, a, rest, n, -, -, he⟩
  · rw [he]; rfl
  · rw [he]; rfl

theorem handleWhile_shell (sh : Shell) (argv : List Arg) (fw : Fw) :
    (handleWhile sh argv fw).fw.shell = fw.shell := by
  rcases handleWhile_cases sh argv fw with ⟨rc, he⟩ | ⟨i, -, -, -, he⟩
  · rw [he]; rfl
  · rw [he]; rfl

theorem handleIf_shell (sh : Shell) (argv : List Arg) (fw : Fw) :
    (handleIf sh argv fw).fw.shell = fw.shell := by
  rcases handleIf_cases sh argv fw with ⟨rc, he⟩ | ⟨i, -, -, -, he⟩
  · rw [he]; rfl
  · rw [he]

theorem handleSet_shell (argv : List Arg) (fw : Fw) : (handleSet argv fw).fw.shell = fw.shell := by
  obtain ⟨vars, rc, he⟩ := handleSet_eq argv fw
  rw [he]
  rfl

theorem handleUnset_shell (argv : List Arg) (fw : Fw) :
    (handleUnset argv fw).fw.shell = fw.shell := by
  obtain ⟨vars, rc, he⟩ := handleUnset_eq argv fw
  rw [he]
  rfl

theorem cliDispatchArgv_shell (t : Tick) (sh : Shell) (argv : List Arg) (fw : Fw) (rc : Int) :
    (cliDispatchArgv t sh argv fw).fw.shell = (Frame.dispatch sh argv).shellAfter fw rc := by
  cases argv with
  | nil => rfl
  | cons a args =>
    unfold cliDispatchArgv Frame.shellAfter
    dsimp only
    cases cliCommandFind (fw.str a) with
    | none => rfl
    | some h =>
      cases h with
      | cmdRepeat => exact handleRepeat_shell sh _ fw
      | cmdWhile => exact handleWhile_shell sh _ fw
      | cmdIf => exact handleIf_shell sh _ fw
      | cmdRun => rfl
      | cmdScript => exact handleScript_shell t sh _ fw
      | cmdSet => exact handleSet_shell _ fw
      | cmdUnset => exact handleUnset_shell _ fw
      | leaf => rfl

theorem runNext_shell (sh : Shell) (script : OpenScript) (off : Nat) (fw : Fw) (rc : Int) :
    (runNext sh script off fw).fw.shell = (Frame.runNext sh script off).shellAfter fw rc := by
  unfold runNext Frame.shellAfter
  dsimp only
  split
  · split
    · rfl
    · exact dispatchLine_shell sh _ fw
  · rfl

/-- **What one tick does to the shell state.** -/
theorem runFrame_shell {t : Tick} {f : Frame} {fw : Fw} {rc : Int} {r : Ran}
    (h : runFrame t f fw rc = some r) : r.fw.shell = f.shellAfter fw rc := by
  unfold runFrame at h
  cases f with
  | feed sh data packet => rw [← Option.some.inj h]; exact cliFeed_shell t sh data packet fw
  | lineDone sh => rw [← Option.some.inj h]; rfl
  | dispatch sh argv => rw [← Option.some.inj h]; exact cliDispatchArgv_shell t sh argv fw rc
  | handled => rw [← Option.some.inj h]; rfl
  | repeatNext sh sub i n =>
    rw [← Option.some.inj h, repeatNext]
    split <;> rfl
  | repeatCheck sh sub i n =>
    rw [← Option.some.inj h, repeatCheck]
    split <;> rfl
  | whileNext sh cond body i =>
    rw [← Option.some.inj h, whileNext]
    split <;> rfl
  | whileCond sh cond body i =>
    rw [← Option.some.inj h, whileCond]
    split <;> rfl
  | whileBody sh cond body i =>
    rw [← Option.some.inj h, whileBody]
    split <;> rfl
  | ifCond sh thenArgv elseArgv =>
    rw [← Option.some.inj h, ifCond]
    split
    · rfl
    · split <;> rfl
  | runNext sh script off => rw [← Option.some.inj h]; exact runNext_shell sh script off fw rc
  | fetch name => exact absurd h (by simp)
  | leaf sh argv => exact absurd h (by simp)

/-- Nothing that comes from outside changes it, or starts or ends a script. -/
theorem outside_shell {m m' : Machine} {e : Event} (hs : m.step e = some m')
    (htick : ∀ t, e ≠ .tick t) :
    m'.fw.shell = m.fw.shell ∧ m'.fw.running = m.fw.running := by
  cases step_cases hs with
  | tick _ _ => exact absurd rfl (htick _)
  | fire _ => exact ⟨dispatchLine_shell .bg _ m.fw, (quiet_dispatchLine .bg _ m.fw).running⟩
  | @chunk data _ _ _ _ =>
    obtain ⟨buf, fetches, hfw⟩ := fetchChunk_fw data m.fw
    rw [hfw]
    exact ⟨rfl, rfl⟩
  | @chunkBelow data _ _ _ _ _ _ =>
    obtain ⟨buf, fetches, hfw⟩ := fetchChunk_fw data m.fw
    rw [hfw]
    exact ⟨rfl, rfl⟩
  | @httpDone t ok name below _ _ =>
    obtain ⟨flash, rc, hdone⟩ := fetchDone_fw t ok name m.fw
    rw [hdone]
    exact ⟨rfl, rfl⟩
  | linkUp => exact ⟨rfl, rfl⟩
  | subscribe _ => exact ⟨rfl, rfl⟩
  | linkDown => exact ⟨rfl, rfl⟩
  | rx _ => exact ⟨rfl, rfl⟩
  | usb _ => exact ⟨rfl, rfl⟩
  | usbFirst _ => exact ⟨rfl, rfl⟩
  | httpGet _ => exact ⟨rfl, rfl⟩
  | leafDone _ => exact ⟨rfl, rfl⟩
  | elsewhere _ => exact ⟨rfl, rfl⟩

/-! ## What `run` holds on to -/

/-- The frame that `shell_push_args` makes of these arguments. -/
def pushedArgs (args : List (List UInt8)) : List (List UInt8) :=
  (args.take shellMaxArgs).map (·.take shellArgMaxLen)

/-- `run` either starts a script, and pushes its arguments, or leaves everything alone. -/
theorem handleRun_frames (sh : Shell) (argv : List Arg) (fw : Fw) :
    ((handleRun sh argv fw).fw.shell = fw.shell ∧ (handleRun sh argv fw).fw.running = fw.running) ∨
    (fw.running = false ∧ (handleRun sh argv fw).fw.running = true ∧
      (handleRun sh argv fw).fw.shell.frames = pushedArgs ((argv.drop 1).map fw.str) ::
        fw.shell.frames) := by
  rcases handleRun_cases sh argv fw with ⟨rc, he⟩ | ⟨hstopped, name, script, -,
    he | ⟨shell, hpush, he⟩⟩
  · rw [he]
    exact .inl ⟨rfl, rfl⟩
  · rw [he]
    exact .inl ⟨rfl, hstopped.symm⟩
  · rw [he]
    refine .inr ⟨hstopped, rfl, ?_⟩
    unfold shellPushArgs at hpush
    split at hpush
    · exact absurd hpush (by simp)
    · rw [← Option.some.inj hpush]
      rfl

/-- A frame that is no loop leaves the arguments alone, unless it starts a script. -/
theorem frames_kept {t : Tick} {f : Frame} {fw : Fw} {rc : Int} {r : Ran}
    (h : runFrame t f fw rc = some r) (hf : f.run = none) (hr : r.fw.running = fw.running) :
    r.fw.shell.frames = fw.shell.frames := by
  have hshell := runFrame_shell h
  cases f with
  | dispatch sh argv =>
    cases argv with
    | nil => rw [hshell]; rfl
    | cons a args =>
      rw [hshell]
      unfold Frame.shellAfter
      obtain rfl := Option.some.inj h
      unfold cliDispatchArgv at hr
      dsimp only at hr ⊢
      cases hfind : cliCommandFind (fw.str a) with
      | none => rfl
      | some h =>
        rw [hfind] at hr
        cases h with
        | cmdRun =>
          rcases handleRun_frames sh (a :: args) fw with ⟨heq, -⟩ | ⟨h0, h1, -⟩
          · exact congrArg ShellState.frames heq
          · have hstart : true = false := h1.symm.trans (hr.trans h0)
            exact absurd hstart (by simp)
        | _ => rfl
  | runNext sh script off => exact absurd hf (by simp [Frame.run])
  | _ => rw [hshell]; rfl

/-- A dispatch of `run` that starts a script pushes its arguments. -/
theorem dispatch_pushes {t : Tick} {sh sh' : Shell} {argv argv' : List Arg} {fw : Fw}
    (hcall : (Frame.dispatch sh argv).calling fw = some (sh', argv', .cmdRun))
    (h0 : fw.running = false) (h1 : (cliDispatchArgv t sh argv fw).fw.running = true) :
    (cliDispatchArgv t sh argv fw).fw.shell.frames = pushedArgs ((argv.drop 1).map fw.str) ::
      fw.shell.frames := by
  cases argv with
  | nil => exact absurd hcall (by simp [Frame.calling])
  | cons a args =>
    unfold cliDispatchArgv at h1 ⊢
    dsimp only at h1 ⊢
    cases hfind : cliCommandFind (fw.str a) with
    | none =>
      rw [Frame.calling, List.head?_cons, Option.bind_some, hfind] at hcall
      exact absurd hcall (by simp)
    | some h =>
      rw [calling_dispatch hfind] at hcall
      obtain ⟨-, -, rfl⟩ : sh = sh' ∧ a :: args = argv' ∧ h = .cmdRun := by simpa using hcall
      rw [hfind] at h1
      rcases handleRun_frames sh (a :: args) fw with ⟨-, heq⟩ | ⟨-, -, hpush⟩
      · exact absurd (h0.symm.trans (heq.symm.trans h1)) Bool.false_ne_true
      · exact hpush

/-- A step that starts a script pushes its arguments. -/
theorem step_starts {m m' : Machine} {e : Event} (hs : m.step e = some m')
    (h0 : m.fw.running = false) (h1 : m'.fw.running = true) :
    ∃ sh argv below, m.stack = .dispatch sh argv :: below ∧
      m'.fw.shell.frames = pushedArgs ((argv.drop 1).map m.fw.str) :: m.fw.shell.frames := by
  have hstart : m'.fw.running = m.fw.running → False := by
    intro hsame
    exact Bool.false_ne_true (h0.symm.trans (hsame.symm.trans h1))
  by_cases htick : ∃ t, e = .tick t
  · obtain ⟨t, rfl⟩ := htick
    cases step_cases hs with
    | @tick _ f below r hstack hrun =>
      cases runFrame_effect hrun with
      | quiet _ _ hq _ => exact (hstart hq.running).elim
      | @captured sh line fw₀ _ _ _ hq he _ =>
        refine (hstart ?_).elim
        show r.fw.running = _
        rw [he, (captureLineCb_run t sh line fw₀).1, hq.running]
      | begun _ _ _ he _ => exact (hstart (by rw [Ran.resume, he]; rfl)).elim
      | removed _ _ he _ => exact (hstart (by rw [Ran.resume, he])).elim
      | fetching _ _ _ he _ => exact (hstart (by rw [Ran.resume, he])).elim
      | opened _ _ hcall _ _ _ _ =>
        cases f with
        | dispatch sh argv =>
          obtain rfl := Option.some.inj hrun
          exact ⟨sh, argv, below, hstack, dispatch_pushes hcall h0 h1⟩
        | _ => exact absurd hcall (by simp [Frame.calling])
      | read _ _ hq _ => exact (hstart hq.running).elim
      | closed _ _ he _ =>
        have hstop : (r.resume below).fw.running = false := by rw [Ran.resume, he]; rfl
        exact absurd (hstop.symm.trans h1) Bool.false_ne_true
  · exact (hstart (outside_shell hs fun t he => htick ⟨t, he⟩).2).elim

/-- The loop of `run`, `g_running`, `g_open` and the frame of arguments: all of them or none. -/
inductive Held (args : List (List UInt8)) (m : Machine) : Prop where
  | idle (hr : m.fw.running = false) (ho : m.fw.scriptOpen = false) (hl : runs m.stack = [])
      (hf : m.fw.shell.frames = [])
  | busy {loop : OpenScript × Nat} (hr : m.fw.running = true) (ho : m.fw.scriptOpen = true)
      (hl : runs m.stack = [loop]) (hf : m.fw.shell.frames = [pushedArgs args])

/-- The arguments that the innermost frame is called with, less the name of the command. -/
def Machine.callArgs (m : Machine) : List (List UInt8) :=
  match m.stack with
  | .dispatch _ argv :: _ => (argv.drop 1).map m.fw.str
  | _ => []

/-- The arguments of the script in progress, after a step. -/
def Machine.argsAfter (m m' : Machine) (args : List (List UInt8)) : List (List UInt8) :=
  if m.fw.running = false ∧ m'.fw.running = true then m.callArgs else args

/-- The loops in progress are the same, and so are the arguments. -/
theorem frames_same {m m' : Machine} {e : Event} (hs : m.step e = some m')
    (hr : m'.fw.running = m.fw.running) (hl : runs m'.stack = runs m.stack) :
    m'.fw.shell.frames = m.fw.shell.frames := by
  by_cases htick : ∃ t, e = .tick t
  · obtain ⟨t, rfl⟩ := htick
    cases step_cases hs with
    | @tick _ f below r hstack hrun =>
      cases hf : f.run with
      | none => exact frames_kept hrun hf hr
      | some loop =>
        cases f with
        | runNext sh script off =>
          show r.fw.shell.frames = _
          rw [runFrame_shell hrun]
          unfold Frame.shellAfter
          dsimp only
          split
          · rfl
          · next hend =>
            -- the loop returns, so there is one less
            obtain rfl := Option.some.inj hrun
            rw [Ran.resume, hstack, runs_cons_run, runNext, if_neg hend] at hl
            have hlen := congrArg List.length hl
            change (runs below).length = (runs below).length + 1 at hlen
            omega
        | _ => exact absurd hf (by simp [Frame.run])
  · exact congrArg ShellState.frames (outside_shell hs fun t he => htick ⟨t, he⟩).1

/-- While a frame that does not wait is innermost, only it can run. -/
theorem step_runs {m m' : Machine} {e : Event} (hs : m.step e = some m') {f : Frame}
    {below : List Frame} (hstack : m.stack = f :: below) (hw : f.waits = false) :
    ∃ t r, runFrame t f m.fw m.rc = some r ∧ m' = r.resume below := by
  by_cases htick : ∃ t, e = .tick t
  · obtain ⟨t, rfl⟩ := htick
    cases step_cases hs with
    | @tick _ f' below' r hstack' hrun =>
      obtain ⟨rfl, rfl⟩ := List.cons.inj (hstack'.symm.trans hstack)
      exact ⟨t, r, hrun, rfl⟩
  · have hpolls : m.polls = false := by
      rw [Machine.polls, hstack, List.head?_cons]
      exact hw
    unfold Machine.step at hs
    cases e with
    | tick t => exact absurd ⟨t, rfl⟩ htick
    | _ =>
      dsimp only at hs
      rw [hpolls] at hs
      exact absurd hs (by simp)

/-- **Every step keeps them together.** -/
theorem Held.step {args : List (List UInt8)} {m m' : Machine} {e : Event} (h : Held args m)
    (hs : m.step e = some m') : Held (m.argsAfter m' args) m' := by
  have hgoes : m'.fw.running = m.fw.running → m.argsAfter m' args = args := by
    intro hr
    refine if_neg fun hnew => ?_
    exact Bool.false_ne_true (hnew.1.symm.trans (hr.symm.trans hnew.2))
  cases runStep_of_step hs with
  | same hr ho hl _ =>
    have hf := frames_same hs hr hl
    rw [hgoes hr]
    cases h with
    | idle h0 ho0 hl0 hf0 => exact .idle (hr.trans h0) (ho.trans ho0) (hl.trans hl0) (hf.trans hf0)
    | busy h1 ho1 hl1 hf1 => exact .busy (hr.trans h1) (ho.trans ho1) (hl.trans hl1) (hf.trans hf1)
  | @opened sh slot script below hidle hr ho _ hstack hl =>
    cases h with
    | idle h0 _ hl0 hf0 =>
      obtain ⟨sh', argv, rest, hcall, hpush⟩ := step_starts hs hidle hr
      have hargs : m.argsAfter m' args = (argv.drop 1).map m.fw.str := by
        rw [Machine.argsAfter, if_pos ⟨hidle, hr⟩, Machine.callArgs, hcall]
      have hone : runs m'.stack = [(script, 0)] := by rw [hstack, runs_cons_run, hl, hl0]
      rw [hargs]
      exact .busy hr ho hone (by rw [hpush, hf0])
    | busy h1 => exact absurd (hidle.symm.trans h1) Bool.false_ne_true
  | @read sh script off below hstack hoff hr ho hl _ =>
    rw [hgoes hr]
    obtain ⟨t, r, hrun, rfl⟩ := step_runs hs hstack rfl
    have hshell := runFrame_shell hrun
    rw [Frame.shellAfter, if_pos hoff] at hshell
    cases h with
    | idle _ _ hl0 _ => rw [hstack, runs_cons_run] at hl0; exact absurd hl0 (by simp)
    | busy h1 ho1 hl1 hf1 =>
      rw [hstack, runs_cons_run] at hl1
      exact .busy (hr.trans h1) (ho.trans ho1) (hl.trans (congrArg _ (List.cons.inj hl1).2))
        ((congrArg ShellState.frames hshell).trans hf1)
  | @closed sh script off below hstack hoff hr ho hbelow _ =>
    obtain ⟨t, r, hrun, rfl⟩ := step_runs hs hstack rfl
    have hshell := runFrame_shell hrun
    rw [Frame.shellAfter, if_neg (Nat.not_lt.mpr hoff)] at hshell
    cases h with
    | idle _ _ hl0 _ => rw [hstack, runs_cons_run] at hl0; exact absurd hl0 (by simp)
    | busy _ _ hl1 hf1 =>
      rw [hstack, runs_cons_run] at hl1
      refine .idle hr ho ?_ (by rw [Ran.resume, hshell, shellPopArgs, hf1]; rfl)
      rw [hbelow, (List.cons.inj hl1).2]

/-! ## All of it is released -/

/-- No script is in progress. -/
structure Fw.Idle (fw : Fw) : Prop where
  running : fw.running = false
  scriptOpen : fw.scriptOpen = false
  frames : fw.shell.frames = []

/-- A command line, dispatched while nothing is in progress, and all that can happen then. -/
def lineRuns : LTS Machine Event :=
  LTS.ofFun (fun m => ∃ (sh : Shell) (n : Nat) (line : Buffer n) (fw : Fw), fw.Idle ∧
    m = (cliDispatchLine sh line fw).resume []) Machine.step

/-- What holds while a command line is dispatched, and behind it. -/
structure Releases (m : Machine) : Prop where
  /-- Behind it, everything is as before. -/
  released : m.stack = [] → m.fw.Idle
  /-- There is at most one script in progress. -/
  scripts : (runs m.stack).length ≤ 1
  opened : m.fw.scriptOpen = true ↔ runs m.stack ≠ []
  running : m.fw.running = true ↔ runs m.stack ≠ []
  /-- It has a frame of arguments, and nothing else has. -/
  depth : m.fw.shell.frames.length = (runs m.stack).length

theorem Held.releases {args : List (List UInt8)} {m : Machine} (h : Held args m) : Releases m := by
  cases h with
  | idle hr ho hl hf =>
    refine ⟨fun _ => ⟨hr, ho, hf⟩, ?_, ?_, ?_, ?_⟩
    · rw [hl]; exact Nat.zero_le 1
    · rw [hl, ho]; simp
    · rw [hl, hr]; simp
    · rw [hl, hf]; rfl
  | busy hr ho hl hf =>
    refine ⟨fun hnil => ?_, ?_, ?_, ?_, ?_⟩
    · rw [hnil] at hl
      exact absurd hl (by simp [runs])
    · rw [hl]; exact Nat.le_refl 1
    · rw [hl, ho]; simp
    · rw [hl, hr]; simp
    · rw [hl, hf]; rfl

/-- Between two scripts nothing is held. -/
theorem Held.idle_fw {args : List (List UInt8)} {m : Machine} (h : Held args m)
    (hstopped : m.fw.running = false) :
    m.fw.Idle := by
  cases h with
  | idle hr ho _ hf => exact ⟨hr, ho, hf⟩
  | busy hr _ _ _ => exact absurd (hstopped.symm.trans hr) Bool.false_ne_true

theorem held_line {n : Nat} {sh : Shell} {line : Buffer n} {fw : Fw} (h : fw.Idle)
    (args : List (List UInt8)) : Held args ((cliDispatchLine sh line fw).resume []) := by
  have hq := quiet_dispatchLine sh line fw
  refine .idle (hq.running.trans h.running) (hq.scriptOpen.trans h.scriptOpen) ?_ ?_
  · rw [Ran.resume, runs_append, ← runs_holders, dispatchLine_holders]
    rfl
  · show (cliDispatchLine sh line fw).fw.shell.frames = []
    rw [dispatchLine_shell, h.frames]

/-- **`run` releases what it takes**, however it ends and whatever is around it. -/
theorem run_releases {m : Machine} (h : lineRuns.Reachable m) : Releases m := by
  have hheld : ∃ args, Held args m := by
    refine LTS.ReachableWhen.inv (P := fun m => ∃ args, Held args m) h (fun m hi => ?_)
      fun m e m' hheld _ hs => ?_
    · obtain ⟨sh, n, line, fw, hidle, rfl⟩ := hi
      exact ⟨[], held_line hidle []⟩
    · obtain ⟨args, hheld⟩ := hheld
      exact ⟨_, hheld.step hs⟩
  obtain ⟨args, hheld⟩ := hheld
  exact hheld.releases

/-- `run lamp`, which removes itself while it runs. -/
theorem runLamp_releases : ∃ m, lineRuns.Reachable m ∧ m.stack = [] ∧ Releases m := by
  have hend : (LTS.exec Machine.step (fun _ _ => True)
      ((cliDispatchLine .usb (Buffer.ofString cliLineMax (CString.ascii "run lamp"))
        (Fw.boot lampFlash)).resume []) (List.replicate 8 (.tick calm))).map Machine.stack =
            some [] := by
    decide +kernel
  obtain ⟨m, hm, hstack⟩ := Option.map_eq_some_iff.mp hend
  have hreach : lineRuns.Reachable m :=
    (LTS.runs_exec hm).reachableWhen (.init ⟨.usb, _, _, Fw.boot lampFlash, ⟨rfl, rfl, rfl⟩, rfl⟩)
  exact ⟨m, hreach, hstack, run_releases hreach⟩

end PicoBLE.Cli
