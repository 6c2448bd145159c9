import PicoBLE.Cli.Machine

/-!
# What a step can do

Most of what runs leaves the capture, the flash and the running script alone;
`Quiet` says so. What does not is one of a few things, and each of them is a
function of the frame and the statics before it: a line goes to the capture
callback, `script save` begins a capture, `script rm` erases a slot, `run` opens
a script, or closes it.

Two kinds of frame hold on to something while other frames come and go above
them: the loop of `run` to a script, and `script fetch` to the buffer. `holders`
is the list of them, and a tick says what becomes of it.
-/

namespace PicoBLE.Cli

open PicoBLE.Ota (Flash)
open PicoBLE.System (bindTargetMax)
open PicoBLE.Storage (OpenScript scriptsOpen scriptsRemove)

/-! ## Nothing that lasts -/

/-- Only lines, arguments, variables and the status have changed. -/
structure Quiet (fw fw' : Fw) : Prop where
  linkUp : fw'.linkUp = fw.linkUp
  usbGreeted : fw'.usbGreeted = fw.usbGreeted
  capturing : ∀ sh, (fw'.ctx sh).capturing = (fw.ctx sh).capturing
  cap : fw'.cap = fw.cap
  flash : fw'.flash = fw.flash
  scriptOpen : fw'.scriptOpen = fw.scriptOpen
  running : fw'.running = fw.running
  fetches : fw'.fetches = fw.fetches

theorem Quiet.refl (fw : Fw) : Quiet fw fw := ⟨rfl, rfl, fun _ => rfl, rfl, rfl, rfl, rfl, rfl⟩

theorem Quiet.trans {a b c : Fw} (h : Quiet a b) (h' : Quiet b c) : Quiet a c :=
  ⟨h'.linkUp.trans h.linkUp, h'.usbGreeted.trans h.usbGreeted,
    fun sh => (h'.capturing sh).trans (h.capturing sh), h'.cap.trans h.cap, h'.flash.trans h.flash,
    h'.scriptOpen.trans h.scriptOpen, h'.running.trans h.running, h'.fetches.trans h.fetches⟩

/-- A change of one context, capture mode apart. -/
theorem quiet_setCtx (fw : Fw) {sh : Shell} {c : CliCtx} (h : c.capturing = (fw.ctx sh).capturing) :
    Quiet fw (fw.setCtx sh c) := by
  refine ⟨rfl, rfl, fun other => ?_, rfl, rfl, rfl, rfl, rfl⟩
  by_cases hsh : other = sh
  · rw [hsh, Fw.setCtx_self, h]
  · rw [Fw.setCtx_of_ne fw c hsh]

theorem quiet_dispatchLine {n : Nat} (sh : Shell) (line : Buffer n) (fw : Fw) :
    Quiet fw (cliDispatchLine sh line fw).fw := by
  rcases dispatchLine_cases sh line fw with ⟨rc, -, he⟩
    | ⟨toks, buf, off, -, ⟨-, he⟩ | ⟨argv, -, he⟩⟩
  · rw [he]; exact Quiet.refl fw
  · rw [he]; exact ⟨rfl, rfl, fun _ => rfl, rfl, rfl, rfl, rfl, rfl⟩
  · rw [he]; exact ⟨rfl, rfl, fun _ => rfl, rfl, rfl, rfl, rfl, rfl⟩

theorem typeChar_capturing (b : UInt8) (c : CliCtx) : (typeChar b c).capturing = c.capturing := by
  unfold typeChar
  dsimp only
  split
  · rfl
  · split
    · rfl
    · split <;> rfl

/-! ## Who is called -/

/-- The byte ends a line. -/
def endsLine (b : UInt8) (c : CliCtx) : Bool := b = 13 || (b = 10 && !c.lastWasCr)

/-- The line that the frame hands over when it runs, and the shell it was typed in. -/
def Frame.handing (f : Frame) (fw : Fw) : Option (Shell × List UInt8) :=
  match f with
  | .feed sh (b :: _) _ => if endsLine b (fw.ctx sh) then (fw.ctx sh).handed.map (sh, ·) else none
  | _ => none

/-- The handler that the frame calls when it runs, with the shell and the arguments. -/
def Frame.calling (f : Frame) (fw : Fw) : Option (Shell × List Arg × Handler) :=
  match f with
  | .dispatch sh argv =>
    (argv.head?.bind fun a => cliCommandFind (fw.str a)).map fun h => (sh, argv, h)
  | _ => none

/-- The call is the given `script` subcommand. -/
def Frame.scriptCall (f : Frame) (fw : Fw) : Option (Shell × ScriptSub) :=
  match f.calling fw with
  | some (sh, argv, .cmdScript) => some (sh, scriptSub fw argv)
  | _ => none

theorem calling_dispatch {fw : Fw} {sh : Shell} {a : Arg} {args : List Arg} {h : Handler}
    (hfind : cliCommandFind (fw.str a) = some h) :
    (Frame.dispatch sh (a :: args)).calling fw = some (sh, a :: args, h) := by
  rw [Frame.calling, List.head?_cons, Option.bind_some, hfind, Option.map_some]

/-- The shell that the event resets. -/
def Machine.resets (m : Machine) : Event → Option Shell
  | .subscribe => some .ble
  | .linkDown => some .ble
  | .usb _ => if m.fw.usbGreeted then none else some .usb
  | _ => none

/-- What a frame does that lasts. -/
inductive Deed where
  | nothing
  /-- A line goes to the capture callback. -/
  | captured (sh : Shell) (line : List UInt8)
  /-- `script save` begins a capture. -/
  | begun (sh : Shell) (name : Arg)
  /-- `script rm` calls the store. -/
  | removed (name : Arg)
  /-- `script fetch` calls `http_get`. -/
  | fetching (name : Arg)
deriving DecidableEq

/-- What a call of `script` does. -/
def ScriptSub.deed (t : Tick) (sh : Shell) (fw : Fw) : ScriptSub → Deed
  | .save name => if saveRefused fw (fw.str name) then .nothing else .begun sh name
  | .fetch name => if fetchRefused t fw (fw.str name) then .nothing else .fetching name
  | .rm name => .removed name
  | _ => .nothing

/-- What the frame does when it runs. -/
def Frame.deed (f : Frame) (t : Tick) (fw : Fw) : Deed :=
  match f.handing fw with
  | some (sh, line) => if (fw.ctx sh).capturing then .captured sh line else .nothing
  | none =>
    match f.scriptCall fw with
    | some (sh, sub) => sub.deed t sh fw
    | none => .nothing

/-- What the innermost frame does in a step. -/
def Machine.deed (m : Machine) : Event → Deed
  | .tick t =>
    match m.stack with
    | f :: _ => f.deed t m.fw
    | [] => .nothing
  | _ => .nothing

theorem deed_tick {m : Machine} {f : Frame} {below : List Frame} (t : Tick)
    (h : m.stack = f :: below) :
    m.deed (.tick t) = f.deed t m.fw := by
  rw [Machine.deed, h]

theorem deed_of_none {f : Frame} {t : Tick} {fw : Fw} (hand : f.handing fw = none)
    (hcall : f.scriptCall fw = none) : f.deed t fw = .nothing := by
  rw [Frame.deed, hand]
  dsimp only
  rw [hcall]

theorem deed_script {f : Frame} {t : Tick} {fw : Fw} {sh : Shell} {sub : ScriptSub}
    (hand : f.handing fw = none) (hcall : f.scriptCall fw = some (sh, sub)) :
    f.deed t fw = sub.deed t sh fw := by
  rw [Frame.deed, hand]
  dsimp only
  rw [hcall]

/-! ## Frames that hold on to something -/

/-- The loop of `run`, and `script fetch`. -/
def Frame.holds : Frame → Bool
  | .runNext _ _ _ => true
  | .fetch _ => true
  | _ => false

/-- The frames of a stack that hold on to something. -/
def holders (fs : List Frame) : List Frame := fs.filter Frame.holds

theorem holders_append (fs gs : List Frame) : holders (fs ++ gs) = holders fs ++ holders gs :=
  List.filter_append ..

/-- What is read off the frames that hold on to something does not depend on the others. -/
theorem filterMap_holders {α : Type} {g : Frame → Option α} (hg : ∀ f, f.holds = false → g f = none)
    (fs : List Frame) : (holders fs).filterMap g = fs.filterMap g := by
  unfold holders
  rw [List.filterMap_filter]
  refine List.filterMap_congr fun f _ => ?_
  cases hf : f.holds with
  | true => rfl
  | false => exact (hg f hf).symm

/-! ## What a tick does -/

/-- What running a frame does to the statics and to the holders. -/
inductive Effect (t : Tick) (f : Frame) (fw : Fw) (r : Ran) : Prop where
  | quiet (hf : f.holds = false) (hdeed : f.deed t fw = .nothing) (h : Quiet fw r.fw)
      (hpush : holders r.push = [])
  | captured {sh : Shell} {line : List UInt8} {fw₀ : Fw} (hf : f.holds = false)
      (hdeed : f.deed t fw = .captured sh line) (hcap : (fw.ctx sh).capturing = true)
        (hq : Quiet fw fw₀)
      (h : r.fw = captureLineCb t sh line fw₀) (hpush : holders r.push = [])
  | begun {sh : Shell} {name : Arg} (hf : f.holds = false) (hdeed : f.deed t fw = .begun sh name)
      (hgo : saveRefused fw (fw.str name) = false) (h : r.fw = fw.beginCapture sh (fw.str name))
      (hpush : holders r.push = [])
  | removed {name : Arg} (hf : f.holds = false) (hdeed : f.deed t fw = .removed name)
      (h : r.fw = { fw with flash := (scriptsRemove (t.flashOk 0) (fw.str name) fw.flash).1 })
      (hpush : holders r.push = [])
  | fetching {name : Arg} (hf : f.holds = false) (hdeed : f.deed t fw = .fetching name)
      (hgo : fetchRefused t fw (fw.str name) = false)
      (h : r.fw = { fw with fetches := { bytes := 0, overflow := false } :: fw.fetches })
      (hpush : holders r.push = [.fetch name])
  /-- `run` opens a script. -/
  | opened {sh : Shell} {argv : List Arg} {script : OpenScript} {name : List UInt8}
      {shell : ShellState}
      (hf : f.holds = false) (hdeed : f.deed t fw = .nothing)
      (hcall : f.calling fw = some (sh, argv, .cmdRun)) (hidle : fw.running = false)
      (hopen : scriptsOpen fw.scriptOpen name fw.flash.image = some script)
      (h : r.fw = { fw with shell := shell, running := true, scriptOpen := true })
      (hpush : r.push = [.runNext sh script 0, .handled])
  /-- `run` reads a line. -/
  | read {sh : Shell} {script : OpenScript} {off : Nat} (hf : f = .runNext sh script off)
      (hoff : off < script.bodyLen) (h : Quiet fw r.fw)
      (hpush : holders r.push = [.runNext sh script (runAdvance (script.text fw.flash.image) off)])
  /-- `run` closes it. -/
  | closed {sh : Shell} {script : OpenScript} {off : Nat} (hf : f = .runNext sh script off)
      (hoff : script.bodyLen ≤ off) (h : r.fw = (runReturn fw).fw) (hpush : r.push = [])

theorem dispatchLine_holders {n : Nat} (sh : Shell) (line : Buffer n) (fw : Fw) :
    holders (cliDispatchLine sh line fw).push = [] := by
  rcases dispatchLine_cases sh line fw with ⟨rc, -, he⟩
    | ⟨toks, buf, off, -, ⟨-, he⟩ | ⟨argv, -, he⟩⟩
  · rw [he]; rfl
  · rw [he]; rfl
  · rw [he]; rfl

/-- A byte ends a line, behind a carriage return or as one, or changes the context. -/
theorem feedByte_cases (t : Tick) (sh : Shell) (b : UInt8) (fw : Fw) :
    (endsLine b (fw.ctx sh) = false ∧ ∃ c : CliCtx, c.capturing = (fw.ctx sh).capturing ∧
      feedByte t sh b fw = (fw.setCtx sh c).ret cliOk) ∨
    (endsLine b (fw.ctx sh) = true ∧ (feedByte t sh b fw = endOfLine t sh fw ∨
      feedByte t sh b fw =
        endOfLine t sh (fw.setCtx sh { fw.ctx sh with lastWasCr := true }))) := by
  unfold feedByte endsLine
  dsimp only
  by_cases hlf : b = 10
  · rw [if_pos hlf]
    cases (fw.ctx sh).lastWasCr with
    | true => exact .inl ⟨by simp [hlf], { fw.ctx sh with lastWasCr := false }, rfl, if_pos rfl⟩
    | false => exact .inr ⟨by simp [hlf], .inl (if_neg Bool.false_ne_true)⟩
  · rw [if_neg hlf]
    by_cases hcr : b = 13
    · rw [if_pos hcr]
      exact .inr ⟨by simp [hcr], .inr rfl⟩
    · rw [if_neg hcr]
      exact .inl ⟨by simp [hlf, hcr], _, typeChar_capturing b _, rfl⟩

/-- **The end of a line**, handed over or empty. -/
theorem endOfLine_effect {t : Tick} {f : Frame} {sh : Shell} {fw fw₀ : Fw} (hf : f.holds = false)
    (hcall : f.scriptCall fw = none) (hq : Quiet fw fw₀)
    (hand : f.handing fw = (fw₀.ctx sh).handed.map (sh, ·)) :
    Effect t f fw (endOfLine t sh fw₀) := by
  have hset : Quiet fw₀ (fw₀.setCtx sh (fw₀.ctx sh).terminate) := quiet_setCtx fw₀ rfl
  unfold endOfLine
  dsimp only
  split
  · next hcap =>
    have hcap' : (fw.ctx sh).capturing = true := (hq.capturing sh).symm.trans hcap
    rw [CliCtx.handed, if_pos (.inl hcap), Option.map_some] at hand
    refine @Effect.captured t f fw _ sh ((fw₀.ctx sh).terminate.line.str 0) _ hf ?_ hcap'
      (hq.trans hset) rfl rfl
    rw [Frame.deed, hand]
    exact if_pos hcap'
  · next hcap =>
    have hdeed : f.deed t fw = .nothing := by
      cases hh : (fw₀.ctx sh).handed with
      | none => exact deed_of_none (by rw [hand, hh]; rfl) hcall
      | some line =>
        rw [Frame.deed, hand, hh, Option.map_some]
        exact if_neg fun h => hcap ((hq.capturing sh).trans h)
    split
    · have hline := quiet_dispatchLine sh (fw₀.ctx sh).terminate.line
        (fw₀.setCtx sh (fw₀.ctx sh).terminate)
      refine .quiet hf hdeed (((hq.trans hset).trans hline).trans (quiet_setCtx _ ?_)) ?_
      · rw [hline.capturing sh, Fw.setCtx_self]
      · rw [holders_append, dispatchLine_holders]
        rfl
    · exact .quiet hf hdeed (hq.trans hset) rfl

theorem deed_feed {t : Tick} {sh : Shell} {data : List UInt8} {packet : Bool} {fw : Fw} :
    ∀ d, (Frame.feed sh data packet).deed t fw = d → d = .nothing ∨
    ∃ sh' line, d = .captured sh' line := by
  intro d hd
  unfold Frame.deed at hd
  split at hd
  · split at hd
    · exact .inr ⟨_, _, hd.symm⟩
    · exact .inl hd.symm
  · exact .inl hd.symm

/-- What is left to do of a packet holds on to nothing. -/
theorem Effect.more {t : Tick} {sh : Shell} {data : List UInt8} {packet : Bool} {fw : Fw} {r : Ran}
    (h : Effect t (.feed sh data packet) fw r) (rest : List UInt8) :
    Effect t (.feed sh data packet) fw { r with push := r.push ++ [.feed sh rest packet] } := by
  have happ : ∀ {fs}, holders r.push = fs → holders (r.push ++ [.feed sh rest packet]) = fs := by
    intro fs hfs
    rw [holders_append, hfs]
    exact List.append_nil fs
  have hno : ∀ d, (Frame.feed sh data packet).deed t fw = d →
      d = .nothing ∨ ∃ sh' line, d = .captured sh' line := deed_feed
  cases h with
  | quiet hf hdeed h hpush => exact .quiet hf hdeed h (happ hpush)
  | captured hf hdeed hcap hq h hpush => exact .captured hf hdeed hcap hq h (happ hpush)
  | begun hf hdeed => exact absurd (hno _ hdeed) (by simp)
  | removed hf hdeed => exact absurd (hno _ hdeed) (by simp)
  | fetching hf hdeed => exact absurd (hno _ hdeed) (by simp)
  | opened hf hdeed hcall => exact absurd hcall (by simp [Frame.calling])
  | read hf => exact absurd hf (by simp)
  | closed hf => exact absurd hf (by simp)

theorem feedByte_effect (t : Tick) (sh : Shell) (b : UInt8) (rest : List UInt8) (packet : Bool)
    (fw : Fw) : Effect t (.feed sh (b :: rest) packet) fw (feedByte t sh b fw) := by
  rcases feedByte_cases t sh b fw with ⟨hends, c, hc, he⟩ | ⟨hends, he | he⟩
  · rw [he]
    refine .quiet rfl (deed_of_none ?_ rfl) (quiet_setCtx fw hc) rfl
    rw [Frame.handing, if_neg (by rw [hends]; exact Bool.false_ne_true)]
  · rw [he]
    exact endOfLine_effect rfl rfl (Quiet.refl fw) (by rw [Frame.handing, if_pos hends])
  · rw [he]
    refine endOfLine_effect rfl rfl (quiet_setCtx fw rfl) ?_
    rw [Frame.handing, if_pos hends, Fw.setCtx_self]
    rfl

theorem cliFeed_effect (t : Tick) (sh : Shell) (data : List UInt8) (packet : Bool) (fw : Fw) :
    Effect t (.feed sh data packet) fw (cliFeed t sh data packet fw) := by
  unfold cliFeed
  cases data with
  | nil =>
    dsimp only
    split <;> exact .quiet rfl rfl (Quiet.refl fw) rfl
  | cons b rest => exact (feedByte_effect t sh b rest packet fw).more rest

/-! ## Handlers -/

/-- A script can only be opened while none is. -/
theorem scriptsOpen_closed {gOpen : Bool} {name : List UInt8} {f : NorFlash.Image}
    {script : OpenScript} (h : scriptsOpen gOpen name f = some script) : gOpen = false := by
  unfold scriptsOpen at h
  split at h
  · exact absurd h (by simp)
  · next hopen => simpa using hopen

theorem Ran.called_holders (r : Ran) : holders r.called.push = holders r.push := by
  rw [Ran.called, holders_append]
  exact List.append_nil _

theorem handleScript_effect {t : Tick} {f : Frame} {sh : Shell} {argv : List Arg} {fw : Fw}
    (hf : f.holds = false) (hand : f.handing fw = none)
    (hcall : f.scriptCall fw = some (sh, scriptSub fw argv)) :
    Effect t f fw (handleScript t sh argv fw).called := by
  have hdeed := deed_script (t := t) hand hcall
  have hquiet : ∀ {r : Ran}, f.deed t fw = .nothing → Quiet fw r.fw → r.push = [] →
      Effect t f fw r.called := by
    intro r hd hq hpush
    exact .quiet hf hd hq (r.called_holders.trans (by rw [hpush]; rfl))
  unfold handleScript
  cases hsub : scriptSub fw argv with
  | save name =>
    rw [hsub] at hdeed
    dsimp only
    unfold cmdSave
    cases hgo : saveRefused fw (fw.str name) with
    | true => exact hquiet (hdeed.trans (if_pos hgo)) (Quiet.refl fw) rfl
    | false =>
      exact .begun hf (hdeed.trans (if_neg (by rw [hgo]; exact Bool.false_ne_true))) hgo rfl rfl
  | list => exact hquiet (by rw [hdeed, hsub]; rfl) (Quiet.refl fw) rfl
  | «show» name =>
    dsimp only
    unfold cmdShow
    cases hopen : scriptsOpen fw.scriptOpen (fw.str name) fw.flash.image with
    | none => exact hquiet (by rw [hdeed, hsub]; rfl) (Quiet.refl fw) rfl
    | some script =>
      -- the script could be opened, so nothing was open
      have hclosed : fw.scriptOpen = false := scriptsOpen_closed hopen
      exact hquiet (by rw [hdeed, hsub]; rfl) ⟨rfl, rfl, fun _ => rfl, rfl, rfl,
        hclosed.symm, rfl, rfl⟩ rfl
  | rm name => exact .removed hf (by rw [hdeed, hsub]; rfl) rfl rfl
  | fetch name =>
    rw [hsub] at hdeed
    dsimp only
    unfold cmdFetch
    cases hgo : fetchRefused t fw (fw.str name) with
    | true => exact hquiet (hdeed.trans (if_pos hgo)) (by rw [if_pos rfl]; exact Quiet.refl fw) rfl
    | false =>
      exact .fetching hf (hdeed.trans (if_neg (by rw [hgo]; exact Bool.false_ne_true))) hgo rfl rfl
  | usage => exact hquiet (by rw [hdeed, hsub]; rfl) (Quiet.refl fw) rfl

/-- `repeat`, `while` and `if` only look at their arguments. -/
theorem handleRepeat_quiet (sh : Shell) (argv : List Arg) (fw : Fw) :
    Quiet fw (handleRepeat sh argv fw).fw ∧ holders (handleRepeat sh argv fw).push = [] := by
  rcases handleRepeat_cases sh argv fw with ⟨rc, he⟩ | ⟨name, count, a, rest, n, -, -, he⟩
  · rw [he]; exact ⟨Quiet.refl fw, rfl⟩
  · rw [he]; exact ⟨Quiet.refl fw, rfl⟩

theorem handleWhile_quiet (sh : Shell) (argv : List Arg) (fw : Fw) :
    Quiet fw (handleWhile sh argv fw).fw ∧ holders (handleWhile sh argv fw).push = [] := by
  rcases handleWhile_cases sh argv fw with ⟨rc, he⟩ | ⟨i, -, -, -, he⟩
  · rw [he]; exact ⟨Quiet.refl fw, rfl⟩
  · rw [he]; exact ⟨Quiet.refl fw, rfl⟩

theorem handleIf_quiet (sh : Shell) (argv : List Arg) (fw : Fw) :
    Quiet fw (handleIf sh argv fw).fw ∧ holders (handleIf sh argv fw).push = [] := by
  rcases handleIf_cases sh argv fw with ⟨rc, he⟩ | ⟨i, -, -, -, he⟩
  · rw [he]; exact ⟨Quiet.refl fw, rfl⟩
  · rw [he]; exact ⟨Quiet.refl fw, rfl⟩

theorem quiet_vars (fw : Fw) (buf : ExpandBuf) (vars : PicoBLE.System.VarTable) :
    Quiet fw { fw with expandBuf := buf, vars := vars } :=
  ⟨rfl, rfl, fun _ => rfl, rfl, rfl, rfl, rfl, rfl⟩

theorem handleSet_quiet (argv : List Arg) (fw : Fw) :
    Quiet fw (handleSet argv fw).fw ∧ holders (handleSet argv fw).push = [] := by
  obtain ⟨vars, rc, he⟩ := handleSet_eq argv fw
  rw [he]
  exact ⟨quiet_vars fw _ vars, rfl⟩

theorem handleUnset_quiet (argv : List Arg) (fw : Fw) :
    Quiet fw (handleUnset argv fw).fw ∧ holders (handleUnset argv fw).push = [] := by
  obtain ⟨vars, rc, he⟩ := handleUnset_eq argv fw
  rw [he]
  exact ⟨quiet_vars fw fw.expandBuf vars, rfl⟩

theorem handleRun_effect {t : Tick} {f : Frame} {sh : Shell} {argv : List Arg} {fw : Fw}
    (hf : f.holds = false) (hdeed : f.deed t fw = .nothing)
    (hcall : f.calling fw = some (sh, argv, .cmdRun)) :
    Effect t f fw (handleRun sh argv fw).called := by
  rcases handleRun_cases sh argv fw with ⟨rc, he⟩ | ⟨hstopped, name, script, hopen,
    he | ⟨shell, -, he⟩⟩
  · rw [he]
    exact .quiet hf hdeed (Quiet.refl fw) rfl
  · have hclosed : fw.scriptOpen = false := scriptsOpen_closed hopen
    rw [he]
    exact .quiet hf hdeed ⟨rfl, rfl, fun _ => rfl, rfl, rfl, hclosed.symm, hstopped.symm, rfl⟩ rfl
  · rw [he]
    exact .opened hf hdeed hcall hstopped hopen rfl rfl

theorem cliDispatchArgv_effect (t : Tick) (sh : Shell) (argv : List Arg) (fw : Fw) :
    Effect t (.dispatch sh argv) fw (cliDispatchArgv t sh argv fw) := by
  unfold cliDispatchArgv
  cases argv with
  | nil => exact .quiet rfl rfl (Quiet.refl fw) rfl
  | cons a args =>
    dsimp only
    cases hfind : cliCommandFind (fw.str a) with
    | none =>
      -- no such command: a message, and nothing else
      refine .quiet rfl (deed_of_none rfl ?_) ⟨rfl, rfl, fun _ => rfl, rfl, rfl, rfl, rfl, rfl⟩ rfl
      rw [Frame.scriptCall, Frame.calling, List.head?_cons, Option.bind_some, hfind]
      rfl
    | some h =>
      have hcall := @calling_dispatch _ sh _ args _ hfind
      have hdeed : h ≠ .cmdScript → (Frame.dispatch sh (a :: args)).deed t fw = .nothing := by
        intro hne
        refine deed_of_none rfl ?_
        rw [Frame.scriptCall, hcall]
        cases h with
        | cmdScript => exact absurd rfl hne
        | _ => rfl
      have hquiet : ∀ {r : Ran}, h ≠ .cmdScript → Quiet fw r.fw ∧ holders r.push = [] →
          Effect t (.dispatch sh (a :: args)) fw r.called := by
        intro r hne hr
        exact .quiet rfl (hdeed hne) hr.1 (r.called_holders.trans hr.2)
      dsimp only
      cases h with
      | cmdRepeat => exact hquiet (by simp) (handleRepeat_quiet sh _ fw)
      | cmdWhile => exact hquiet (by simp) (handleWhile_quiet sh _ fw)
      | cmdIf => exact hquiet (by simp) (handleIf_quiet sh _ fw)
      | cmdRun => exact handleRun_effect rfl (hdeed (by simp)) hcall
      | cmdScript => exact handleScript_effect rfl rfl (by rw [Frame.scriptCall, hcall])
      | cmdSet => exact hquiet (by simp) (handleSet_quiet _ fw)
      | cmdUnset => exact hquiet (by simp) (handleUnset_quiet _ fw)
      | leaf => exact hquiet (by simp) ⟨Quiet.refl fw, rfl⟩

theorem runNext_effect (t : Tick) (sh : Shell) (script : OpenScript) (off : Nat) (fw : Fw) :
    Effect t (.runNext sh script off) fw (runNext sh script off fw) := by
  unfold runNext
  split
  · next hoff =>
    dsimp only
    split
    -- a blank line or a comment
    · exact .read rfl hoff (Quiet.refl fw) rfl
    · refine .read rfl hoff (quiet_dispatchLine _ _ fw) ?_
      rw [holders_append, dispatchLine_holders]
      rfl
  · next hoff => exact .closed rfl (Nat.le_of_not_lt hoff) rfl rfl

/-- **What one tick does.** -/
theorem runFrame_effect {t : Tick} {f : Frame} {fw : Fw} {rc : Int} {r : Ran}
    (h : runFrame t f fw rc = some r) : Effect t f fw r := by
  unfold runFrame at h
  cases f with
  | feed sh data packet => rw [← Option.some.inj h]; exact cliFeed_effect t sh data packet fw
  | lineDone sh => rw [← Option.some.inj h]; exact .quiet rfl rfl (quiet_setCtx fw rfl) rfl
  | dispatch sh argv => rw [← Option.some.inj h]; exact cliDispatchArgv_effect t sh argv fw
  | handled =>
    rw [← Option.some.inj h]
    exact .quiet rfl rfl ⟨rfl, rfl, fun _ => rfl, rfl, rfl, rfl, rfl, rfl⟩ rfl
  | repeatNext sh sub i n =>
    rw [← Option.some.inj h, repeatNext]
    split <;> exact .quiet rfl rfl (Quiet.refl fw) rfl
  | repeatCheck sh sub i n =>
    rw [← Option.some.inj h, repeatCheck]
    split <;> exact .quiet rfl rfl (Quiet.refl fw) rfl
  | whileNext sh cond body i =>
    rw [← Option.some.inj h, whileNext]
    split <;> exact .quiet rfl rfl (Quiet.refl fw) rfl
  | whileCond sh cond body i =>
    rw [← Option.some.inj h, whileCond]
    split <;> exact .quiet rfl rfl (Quiet.refl fw) rfl
  | whileBody sh cond body i =>
    rw [← Option.some.inj h, whileBody]
    split <;> exact .quiet rfl rfl (Quiet.refl fw) rfl
  | ifCond sh thenArgv elseArgv =>
    rw [← Option.some.inj h, ifCond]
    split
    · exact .quiet rfl rfl (Quiet.refl fw) rfl
    · split <;> exact .quiet rfl rfl (Quiet.refl fw) rfl
  | runNext sh script off => rw [← Option.some.inj h]; exact runNext_effect t sh script off fw
  | fetch name => exact absurd h (by simp)
  | leaf sh argv => exact absurd h (by simp)

/-! ## The events -/

/-- **What one step is.** -/
inductive Stepped (m : Machine) : Event → Machine → Prop where
  | tick {t : Tick} {f : Frame} {below : List Frame} {r : Ran} (hstack : m.stack = f :: below)
      (hrun : runFrame t f m.fw m.rc = some r) : Stepped m (.tick t) (r.resume below)
  | linkUp : Stepped m .linkUp { m with fw := { m.fw with linkUp := true } }
  | subscribe (hup : m.fw.linkUp = true) :
      Stepped m .subscribe { m with fw := m.fw.setCtx .ble (cliReset (m.fw.ctx .ble)) }
  | linkDown : Stepped m .linkDown
      { m with fw := { m.fw.setCtx .ble (cliReset (m.fw.ctx .ble)) with linkUp := false } }
  | rx {data : List UInt8} (hup : m.fw.linkUp = true) :
      Stepped m (.rx data) { m with stack := .feed .ble data true :: m.stack }
  | usb {b : UInt8} (hgreeted : m.fw.usbGreeted = true) :
      Stepped m (.usb b) { m with stack := .feed .usb [b] false :: m.stack }
  | usbFirst {b : UInt8} (hgreeted : m.fw.usbGreeted = false) :
      Stepped m (.usb b)
        { m with fw := { m.fw.setCtx .usb (cliReset (m.fw.ctx .usb)) with usbGreeted := true },
                 stack := .feed .usb [b] false :: m.stack }
  | fire {target : List UInt8} (hlen : target.length ≤ bindTargetMax) :
      Stepped m (.fire target)
        ((cliDispatchLine .bg (Buffer.ofString (bindTargetMax + 1) target) m.fw).resume m.stack)
  | chunk {data : List UInt8} {name : Arg} {below : List Frame}
      (hstack : m.stack = .fetch name :: below)
      (hgo : m.fw.fetchState.overflow = false) :
      Stepped m (.chunk data) { m with fw := fetchChunk data m.fw }
  | chunkBelow {data : List UInt8} {sh : Shell} {argv : List Arg} {below : List Frame}
      (hstack : m.stack = .leaf sh argv :: below) (hne : m.fw.fetches ≠ [])
      (hgo : m.fw.fetchState.overflow = false) :
      Stepped m (.chunkBelow data) { m with fw := fetchChunk data m.fw }
  | httpDone {t : Tick} {ok : Bool} {name : Arg} {below : List Frame}
      (hstack : m.stack = .fetch name :: below)
        (hok : ¬ (ok = true ∧ m.fw.fetchState.overflow = true)) :
      Stepped m (.httpDone t ok) ((fetchDone t ok name m.fw).resume below)
  | httpGet {sh : Shell} {argv : List Arg} {below : List Frame}
      (hstack : m.stack = .leaf sh argv :: below) : Stepped m .httpGet m
  | leafDone {rc : Int} {sh : Shell} {argv : List Arg} {below : List Frame}
      (hstack : m.stack = .leaf sh argv :: below) :
      Stepped m (.leafDone rc) { m with stack := below, rc := rc }
  | elsewhere {flash : Flash} (hsame : SameScripts m.fw.flash flash) :
      Stepped m (.elsewhere flash) { m with fw := { m.fw with flash := flash } }

/-- The outside acts by a callback, or by waking what waits. -/
theorem step_outside {m m' : Machine} {e : Event} (h : m.step e = some m')
    (htick : ∀ t, e ≠ .tick t) :
    m.interrupt e = some m' ∨ m.wake e = some m' := by
  unfold Machine.step at h
  split at h
  · exact absurd rfl (htick _)
  · split at h
    · split at h
      · next heq => exact .inl (heq.trans h)
      · exact .inr h
    · exact absurd h (by simp)

theorem interrupt_cases {m m' : Machine} {e : Event} (h : m.interrupt e = some m') :
    Stepped m e m' := by
  unfold Machine.interrupt at h
  cases e with
  | linkUp => rw [← Option.some.inj h]; exact .linkUp
  | subscribe =>
    dsimp only at h
    split at h
    · next hup => rw [← Option.some.inj h]; exact .subscribe hup
    · exact absurd h (by simp)
  | linkDown => rw [← Option.some.inj h]; exact .linkDown
  | rx data =>
    dsimp only at h
    split at h
    · next hup => rw [← Option.some.inj h]; exact .rx hup
    · exact absurd h (by simp)
  | usb b =>
    dsimp only at h
    split at h
    · next hg => rw [← Option.some.inj h]; exact .usb hg
    · next hg => rw [← Option.some.inj h]; exact .usbFirst (by simpa using hg)
  | fire target =>
    dsimp only at h
    split at h
    · next hlen => rw [← Option.some.inj h]; exact .fire hlen
    · exact absurd h (by simp)
  | elsewhere flash =>
    dsimp only at h
    split at h
    · next hsame => rw [← Option.some.inj h]; exact .elsewhere hsame
    · exact absurd h (by simp)
  | tick t => exact absurd h (by simp)
  | chunk data => exact absurd h (by simp)
  | chunkBelow data => exact absurd h (by simp)
  | httpDone t ok => exact absurd h (by simp)
  | httpGet => exact absurd h (by simp)
  | leafDone rc => exact absurd h (by simp)

/-- A piece is delivered to a fetch that still takes it. -/
theorem deliver_some {m m' : Machine} {data : List UInt8} (h : m.deliver data = some m') :
    m.fw.fetchState.overflow = false ∧ m' = { m with fw := fetchChunk data m.fw } := by
  unfold Machine.deliver at h
  split at h
  · exact absurd h (by simp)
  · next hgo => exact ⟨Bool.eq_false_of_not_eq_true hgo, (Option.some.inj h).symm⟩

theorem wake_cases {m m' : Machine} {e : Event} (h : m.wake e = some m') : Stepped m e m' := by
  unfold Machine.wake at h
  cases e with
  | chunk data =>
    dsimp only at h
    split at h
    · next hstack =>
      obtain ⟨hgo, rfl⟩ := deliver_some h
      exact .chunk hstack hgo
    · exact absurd h (by simp)
  | chunkBelow data =>
    dsimp only at h
    split at h
    · next hstack =>
      split at h
      · exact absurd h (by simp)
      · next hne =>
        obtain ⟨hgo, rfl⟩ := deliver_some h
        exact .chunkBelow hstack hne hgo
    · exact absurd h (by simp)
  | httpDone t ok =>
    dsimp only at h
    split at h
    · next hstack =>
      split at h
      -- after an overflow `http_get` does not return `HTTP_OK`
      · exact absurd h (by simp)
      · next hok => rw [← Option.some.inj h]; exact .httpDone hstack hok
    · exact absurd h (by simp)
  | httpGet =>
    dsimp only at h
    split at h
    · next hstack => rw [← Option.some.inj h]; exact .httpGet hstack
    · exact absurd h (by simp)
  | leafDone rc =>
    dsimp only at h
    split at h
    · next hstack => rw [← Option.some.inj h]; exact .leafDone hstack
    · exact absurd h (by simp)
  | tick t => exact absurd h (by simp)
  | linkUp => exact absurd h (by simp)
  | subscribe => exact absurd h (by simp)
  | linkDown => exact absurd h (by simp)
  | rx data => exact absurd h (by simp)
  | usb b => exact absurd h (by simp)
  | fire target => exact absurd h (by simp)
  | elsewhere flash => exact absurd h (by simp)

theorem step_cases {m m' : Machine} {e : Event} (h : m.step e = some m') : Stepped m e m' := by
  by_cases htick : ∃ t, e = .tick t
  · obtain ⟨t, rfl⟩ := htick
    unfold Machine.step at h
    dsimp only at h
    cases hstack : m.stack with
    | nil => rw [hstack] at h; exact absurd h (by simp)
    | cons f below =>
      rw [hstack] at h
      obtain ⟨r, hrun, rfl⟩ := Option.map_eq_some_iff.mp h
      exact .tick hstack hrun
  -- everything else comes from outside
  · rcases step_outside h fun t he => htick ⟨t, he⟩ with hi | hw
    · exact interrupt_cases hi
    · exact wake_cases hw

end PicoBLE.Cli
