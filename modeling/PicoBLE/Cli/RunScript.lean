import PicoBLE.Cli.Store

/-!
# A running script

`run` keeps a pointer into the flash while it executes the commands it finds
there, and nothing that can happen meanwhile looks at `g_open` before it erases
a slot. What the loop reads is what was opened in every run in which no call of
the store erases the slot of the running script.

The text that was opened and the lines sent since are recorded beside the
machine. At any time these lines and the ones still to come are the command
lines of that text:

* **R1.** `g_running` and `g_open` say whether there is a loop of `run` in
  progress, and there is at most one.
* **R2.** It reads the slot it opened, which still passes the check and still
  holds the same text.
* **R3.** The lines sent, and the ones from its offset on, are all of them.
-/

namespace PicoBLE.Cli

open NorFlash
open PicoBLE.Storage
open PicoBLE.System (bindTargetMax)

/-! ## The command lines of a text -/

/-- Every turn of the loop gets further. -/
theorem runAdvance_gt {text : List UInt8} {off : Nat} (h : off < text.length) :
    off < runAdvance text off := by
  obtain ⟨c, rest, hdrop⟩ : ∃ c rest, text.drop off = c :: rest :=
    List.exists_cons_of_ne_nil fun hnil => absurd (List.drop_eq_nil_iff.mp hnil) (Nat.not_le.mpr h)
  have hline : runLine text off = (c :: rest.take 254).takeWhile fun c => !isNewline c := by
    rw [runLine, hdrop]
    rfl
  unfold runAdvance
  dsimp only
  cases hc : isNewline c with
  | true =>
    -- a line of no characters: the newline itself is passed
    have hnil : runLine text off = [] := by rw [hline, List.takeWhile_cons_of_neg (by simp [hc])]
    rw [hnil, List.length_nil, Nat.add_zero, hdrop, List.takeWhile_cons_of_pos hc, List.length_cons]
    omega
  | false =>
    rw [hline, List.takeWhile_cons_of_pos (by simp [hc]), List.length_cons]
    omega

/-- The lines that the loop dispatches from an offset on. -/
def commandsFrom (text : List UInt8) (off : Nat) : List (List UInt8) :=
  if off < text.length then
    if runSkips (runLine text off) then commandsFrom text (runAdvance text off)
    else runLine text off :: commandsFrom text (runAdvance text off)
  else []
termination_by text.length - off
decreasing_by
  · have := @runAdvance_gt text off ‹_›
    omega
  · have := @runAdvance_gt text off ‹_›
    omega

/-- The lines of a script. -/
def scriptCommands (text : List UInt8) : List (List UInt8) := commandsFrom text 0

theorem commandsFrom_end {text : List UInt8} {off : Nat} (h : text.length ≤ off) :
    commandsFrom text off = [] := by
  rw [commandsFrom, if_neg (Nat.not_lt.mpr h)]

/-! ## What was opened -/

/-- `script` is what `scripts_open` handed out for a slot, and the slot still passes its check. -/
def OpenIn (slot : ScriptSlot) (script : OpenScript) (f : Image) : Prop :=
  script.body = slot.offset + scriptHeaderSize ∧ slotBodyLen slot f = some script.bodyLen

theorem scriptsOpen_openIn {gOpen : Bool} {name : List UInt8} {f : Image} {script : OpenScript}
    (h : scriptsOpen gOpen name f = some script) : ∃ slot, OpenIn slot script f := by
  unfold scriptsOpen at h
  split at h
  · exact absurd h (by simp)
  · split at h
    · exact absurd h (by simp)
    · next slot _ =>
      split at h
      · exact absurd h (by simp)
      · next bodyLen hlen =>
        obtain rfl := Option.some.inj h
        exact ⟨slot, rfl, hlen⟩

theorem slotBodyLen_le {slot : ScriptSlot} {f : Image} {n : Nat} (h : slotBodyLen slot f = some n) :
    n ≤ scriptBodyMax := by
  unfold slotBodyLen at h
  dsimp only at h
  split at h
  · exact absurd h (by simp)
  · next hle =>
    split at h
    · exact absurd h (by simp)
    · obtain rfl := Option.some.inj h
      exact Nat.le_of_not_lt hle

/-- A slot that reads the same passes the same check and holds the same text. -/
theorem OpenIn.congr {slot : ScriptSlot} {script : OpenScript} {f g : Image}
    (h : OpenIn slot script f)
    (hr : read slot.offset scriptSlotSize g = read slot.offset scriptSlotSize f) :
    OpenIn slot script g ∧ script.text g = script.text f := by
  have hB : scriptHeaderSize + scriptBodyMax = scriptSlotSize := rfl
  have hpart : ∀ n, n ≤ scriptBodyMax →
      read (slot.offset + scriptHeaderSize) n g = read (slot.offset + scriptHeaderSize) n f :=
    fun n hn => read_part hr (Nat.le_add_right _ _) (by omega)
  have hlen : slotBodyLen slot g = slotBodyLen slot f := by
    unfold slotBodyLen
    rw [slotHdr_congr hr]
    dsimp only
    split
    · rfl
    · next hle => rw [hpart _ (Nat.le_of_not_lt hle)]
  refine ⟨⟨h.1, hlen.trans h.2⟩, ?_⟩
  rw [OpenScript.text, OpenScript.text, h.1]
  exact hpart _ (slotBodyLen_le h.2)

theorem text_length (script : OpenScript) (f : Image) : (script.text f).length = script.bodyLen :=
  read_length _ _ _

/-! ## The loops in progress -/

/-- A loop of `run`: its script and its offset. -/
def Frame.run : Frame → Option (OpenScript × Nat)
  | .runNext _ script off => some (script, off)
  | _ => none

/-- The loops of `run` on a stack. -/
def runs (fs : List Frame) : List (OpenScript × Nat) := fs.filterMap Frame.run

theorem run_of_not_holds (f : Frame) (h : f.holds = false) : f.run = none := by
  cases f with
  | runNext _ _ _ => exact absurd h.symm Bool.false_ne_true
  | _ => rfl

theorem runs_holders (fs : List Frame) : runs (holders fs) = runs fs :=
  filterMap_holders run_of_not_holds fs

theorem runs_append (fs gs : List Frame) : runs (fs ++ gs) = runs fs ++ runs gs :=
  List.filterMap_append ..

theorem runs_cons_of_not {f : Frame} (h : f.holds = false) (fs : List Frame) :
    runs (f :: fs) = runs fs :=
  List.filterMap_cons_none (run_of_not_holds f h)

theorem runs_cons_run (sh : Shell) (script : OpenScript) (off : Nat) (fs : List Frame) :
    runs (.runNext sh script off :: fs) = (script, off) :: runs fs := rfl

/-- The line that the loop of `run` is about to dispatch. -/
def Machine.sending (m : Machine) : Event → Option (List UInt8)
  | .tick _ =>
    match m.stack with
    | .runNext _ script off :: _ =>
      let line := runLine (script.text m.fw.flash.image) off
      if off < script.bodyLen ∧ runSkips line = false then some line else none
    | _ => none
  | _ => none

/-- What one turn of the loop dispatches. -/
def lineSent (text : List UInt8) (off : Nat) : List (List UInt8) :=
  if runSkips (runLine text off) = false then [runLine text off] else []

theorem sending_loop {m : Machine} {t : Tick} {sh : Shell} {script : OpenScript} {off : Nat}
    {below : List Frame} (hstack : m.stack = .runNext sh script off :: below) :
    (m.sending (.tick t)).toList =
      if off < script.bodyLen then lineSent (script.text m.fw.flash.image) off else [] := by
  unfold Machine.sending lineSent
  rw [hstack]
  dsimp only
  by_cases hoff : off < script.bodyLen
  · rw [if_pos hoff]
    by_cases hskip : runSkips (runLine (script.text m.fw.flash.image) off) = false
    · rw [if_pos ⟨hoff, hskip⟩, if_pos hskip]
      rfl
    · rw [if_neg fun h => hskip h.2, if_neg hskip]
      rfl
  · rw [if_neg fun h => hoff h.1, if_neg hoff]
    rfl

/-- What a step does to the loops of `run`. -/
inductive RunStep (m : Machine) (e : Event) (m' : Machine) : Prop where
  /-- Nothing. -/
  | same (hr : m'.fw.running = m.fw.running) (ho : m'.fw.scriptOpen = m.fw.scriptOpen)
      (hs : runs m'.stack = runs m.stack) (hno : m.sending e = none)
  /-- A loop begins. -/
  | opened {sh : Shell} {slot : ScriptSlot} {script : OpenScript} {below : List Frame}
      (hidle : m.fw.running = false) (hr : m'.fw.running = true) (ho : m'.fw.scriptOpen = true)
      (hslot : OpenIn slot script m'.fw.flash.image)
      (hstack : m'.stack = .runNext sh script 0 :: below) (hs : runs below = runs m.stack)
  /-- The loop goes on. -/
  | read {sh : Shell} {script : OpenScript} {off : Nat} {below : List Frame}
      (hstack : m.stack = .runNext sh script off :: below) (hoff : off < script.bodyLen)
      (hr : m'.fw.running = m.fw.running) (ho : m'.fw.scriptOpen = m.fw.scriptOpen)
      (hs : runs m'.stack = (script, runAdvance (script.text m.fw.flash.image) off) :: runs below)
      (hsend : (m.sending e).toList = lineSent (script.text m.fw.flash.image) off)
  /-- It ends. -/
  | closed {sh : Shell} {script : OpenScript} {off : Nat} {below : List Frame}
      (hstack : m.stack = .runNext sh script off :: below) (hoff : script.bodyLen ≤ off)
      (hr : m'.fw.running = false) (ho : m'.fw.scriptOpen = false) (hs : m'.stack = below)
      (hno : m.sending e = none)

theorem sending_of_not_holds {m : Machine} {t : Tick} {f : Frame} {below : List Frame}
    (hstack : m.stack = f :: below) (hf : f.holds = false) : m.sending (.tick t) = none := by
  unfold Machine.sending
  rw [hstack]
  cases f with
  | runNext _ _ _ => exact absurd hf (by simp [Frame.holds])
  | _ => rfl

theorem captureLineCb_run (t : Tick) (sh : Shell) (line : List UInt8) (fw : Fw) :
    (captureLineCb t sh line fw).running = fw.running ∧
      (captureLineCb t sh line fw).scriptOpen = fw.scriptOpen := by
  rcases captureLineCb_cases t sh line fw with ⟨-, he⟩ | ⟨-, he⟩ | ⟨-, -, he⟩
  · rw [he]; exact ⟨rfl, rfl⟩
  · rw [he]; exact ⟨rfl, rfl⟩
  · rw [he]; exact ⟨rfl, rfl⟩

theorem runStep_of_step {m m' : Machine} {e : Event} (hs : m.step e = some m') :
    RunStep m e m' := by
  cases step_cases hs with
  | @tick t f below r hstack hrun =>
    have hruns : ∀ {fs}, holders r.push = fs →
        runs (r.resume below).stack = runs fs ++ runs below := by
      intro fs hfs
      rw [Ran.resume, runs_append, ← runs_holders r.push, hfs]
    -- a frame that is no loop, and pushes none
    have hkeep : ∀ {fs}, f.holds = false → holders r.push = fs → runs fs = [] →
        r.fw.running = m.fw.running → r.fw.scriptOpen = m.fw.scriptOpen →
        RunStep m (.tick t) (r.resume below) := by
      intro fs hf hfs hnil hr ho
      refine .same hr ho ?_ (sending_of_not_holds hstack hf)
      rw [hruns hfs, hnil, hstack, runs_cons_of_not hf]
      rfl
    cases runFrame_effect hrun with
    | quiet hf _ hq hpush => exact hkeep hf hpush rfl hq.running hq.scriptOpen
    | @captured sh line fw₀ hf _ _ hq he hpush =>
      obtain ⟨hr, ho⟩ := captureLineCb_run t sh line fw₀
      exact hkeep hf hpush rfl (by rw [he, hr, hq.running]) (by rw [he, ho, hq.scriptOpen])
    | begun hf _ _ he hpush => exact hkeep hf hpush rfl (by rw [he]; rfl) (by rw [he]; rfl)
    | removed hf _ he hpush => exact hkeep hf hpush rfl (by rw [he]) (by rw [he])
    | fetching hf _ _ he hpush => exact hkeep hf hpush rfl (by rw [he]) (by rw [he])
    | @opened sh argv script name shell hf _ _ hidle hopen he hpush =>
      -- the loop starts with the slot that passed the check
      obtain ⟨slot, hslot⟩ := scriptsOpen_openIn hopen
      refine @RunStep.opened m _ _ sh slot script (.handled :: below) hidle (by rw [Ran.resume, he])
        (by rw [Ran.resume, he]) ?_ ?_ ?_
      · rw [Ran.resume, he]
        exact hslot
      · rw [Ran.resume, hpush]
        rfl
      · rw [hstack, runs_cons_of_not hf]
        rfl
    | read hf hoff hq hpush =>
      subst hf
      exact .read hstack hoff hq.running hq.scriptOpen (hruns hpush)
        ((sending_loop hstack).trans (if_pos hoff))
    | closed hf hoff he hpush =>
      subst hf
      refine .closed hstack hoff (by rw [Ran.resume, he]; rfl) (by rw [Ran.resume, he]; rfl) ?_ ?_
      · rw [Ran.resume, hpush]
        rfl
      · exact Option.toList_eq_nil_iff.mp
          ((sending_loop hstack).trans (if_neg (Nat.not_lt.mpr hoff)))
  | linkUp => exact .same rfl rfl rfl rfl
  | subscribe _ => exact .same rfl rfl rfl rfl
  | linkDown => exact .same rfl rfl rfl rfl
  | rx _ => exact .same rfl rfl rfl rfl
  | usb _ => exact .same rfl rfl rfl rfl
  | usbFirst _ => exact .same rfl rfl rfl rfl
  | @fire target _ =>
    have hq := quiet_dispatchLine .bg (Buffer.ofString (bindTargetMax + 1) target) m.fw
    refine .same hq.running hq.scriptOpen ?_ rfl
    rw [Ran.resume, runs_append, ← runs_holders, dispatchLine_holders]
    rfl
  | @chunk data _ _ _ _ =>
    obtain ⟨buf, fetches, hfw⟩ := fetchChunk_fw data m.fw
    exact .same (by rw [hfw]) (by rw [hfw]) rfl rfl
  | @chunkBelow data _ _ _ _ _ _ =>
    obtain ⟨buf, fetches, hfw⟩ := fetchChunk_fw data m.fw
    exact .same (by rw [hfw]) (by rw [hfw]) rfl rfl
  | @httpDone t ok name below hstack _ =>
    obtain ⟨flash, rc, hdone⟩ := fetchDone_fw t ok name m.fw
    rw [hdone]
    exact .same rfl rfl (by rw [hstack]; rfl) rfl
  | httpGet _ => exact .same rfl rfl rfl rfl
  | leafDone hstack => exact .same rfl rfl (by rw [hstack]; rfl) rfl
  | elsewhere _ => exact .same rfl rfl rfl rfl

/-! ## The script in progress -/

/-- The machine, the text that the script in progress was opened with, and the lines sent since. -/
structure RunWorld where
  m : Machine
  opened : List UInt8
  sent : List (List UInt8)

/-- The text of the script that the innermost frame is about to run. -/
def Machine.scriptText (m : Machine) : List UInt8 :=
  match m.stack with
  | .runNext _ script _ :: _ => script.text m.fw.flash.image
  | _ => []

/-- A step of the machine, and what there is to record of it. -/
def RunWorld.next (w : RunWorld) (e : Event) : Option RunWorld :=
  (w.m.step e).map fun m' =>
    if w.m.fw.running = false ∧ m'.fw.running = true then
      { m := m', opened := m'.scriptText, sent := [] }
    else { m := m', opened := w.opened, sent := w.sent ++ (w.m.sending e).toList }

def runWorlds : LTS RunWorld Event :=
  LTS.ofFun (fun w => ∃ flash, w = { m := Machine.boot flash, opened := [], sent := [] })
    RunWorld.next

/-- No slot that a running script was opened in is erased. -/
def SlotKept (m : Machine) (e : Event) : Prop :=
  ∀ slot ∈ m.erases e, ∀ loop ∈ runs m.stack, loop.1.body ≠ slot.offset + scriptHeaderSize

instance (m : Machine) (e : Event) : Decidable (SlotKept m e) :=
  inferInstanceAs (Decidable (∀ slot ∈ m.erases e, _))

/-- R2 and R3, of one loop. -/
structure LoopIntact (w : RunWorld) (script : OpenScript) (off : Nat) : Prop where
  /-- The check that `scripts_open` made still succeeds. -/
  slot : ∃ slot, OpenIn slot script w.m.fw.flash.image
  /-- The bytes are those that it was made on. -/
  text : script.text w.m.fw.flash.image = w.opened
  /-- What has been dispatched and what will be are the lines of the text. -/
  lines : w.sent ++ commandsFrom w.opened off = scriptCommands w.opened

/-- The running script is what was opened, and its lines go out in order. -/
def RunIntact (w : RunWorld) : Prop := ∀ loop ∈ runs w.m.stack, LoopIntact w loop.1 loop.2

/-- R1, and R2 and R3 for the loop there is. -/
def RunInv (w : RunWorld) : Prop :=
  (w.m.fw.running = false ∧ w.m.fw.scriptOpen = false ∧ runs w.m.stack = []) ∨
    (w.m.fw.running = true ∧ w.m.fw.scriptOpen = true ∧
      ∃ script off, runs w.m.stack = [(script, off)] ∧ LoopIntact w script off)

theorem RunInv.intact {w : RunWorld} (h : RunInv w) : RunIntact w := by
  intro loop hloop
  rcases h with ⟨-, -, hnil⟩ | ⟨-, -, script, off, hone, hloopIntact⟩
  · rw [hnil] at hloop
    exact absurd hloop (by simp)
  · rw [hone, List.mem_singleton] at hloop
    rw [hloop]
    exact hloopIntact

/-- The flash can change elsewhere. -/
theorem LoopIntact.congr {w w' : RunWorld} {script : OpenScript} {off : Nat}
    (h : LoopIntact w script off) (hslot : ∀ slot, OpenIn slot script w.m.fw.flash.image →
      read slot.offset scriptSlotSize w'.m.fw.flash.image
        = read slot.offset scriptSlotSize w.m.fw.flash.image)
    (ho : w'.opened = w.opened) (hs : w'.sent = w.sent) : LoopIntact w' script off := by
  obtain ⟨slot, hopen⟩ := h.slot
  obtain ⟨hopen', htext⟩ := hopen.congr (hslot slot hopen)
  refine ⟨⟨slot, hopen'⟩, ?_, ?_⟩
  · rw [htext, ho, h.text]
  · rw [ho, hs, h.lines]

/-- A line, and the lines behind it. -/
theorem commandsFrom_step {text : List UInt8} {off : Nat} (h : off < text.length) :
    commandsFrom text off = lineSent text off ++ commandsFrom text (runAdvance text off) := by
  rw [commandsFrom, if_pos h, lineSent]
  cases runSkips (runLine text off) <;> rfl

theorem next_eq {w w' : RunWorld} {e : Event} (h : w.next e = some w') :
    w.m.step e = some w'.m ∧
      ((w.m.fw.running = false ∧ w'.m.fw.running = true ∧ w'.opened = w'.m.scriptText ∧
        w'.sent = []) ∨
        (¬ (w.m.fw.running = false ∧ w'.m.fw.running = true) ∧ w'.opened = w.opened ∧
          w'.sent = w.sent ++ (w.m.sending e).toList)) := by
  obtain ⟨m', hstep, heq⟩ := Option.map_eq_some_iff.mp h
  split at heq
  · next hnew =>
    subst heq
    exact ⟨hstep, .inl ⟨hnew.1, hnew.2, rfl, rfl⟩⟩
  · next hnew =>
    subst heq
    exact ⟨hstep, .inr ⟨hnew, rfl, rfl⟩⟩

/-- Unless a loop begins, what is recorded goes on. -/
theorem next_goes_on {w w' : RunWorld} {e : Event} (h : w.next e = some w')
    (hr : w.m.fw.running = true ∨ w'.m.fw.running = w.m.fw.running) :
    w'.opened = w.opened ∧ w'.sent = w.sent ++ (w.m.sending e).toList := by
  rcases (next_eq h).2 with ⟨h0, h1, -⟩ | ⟨-, hgo⟩
  · rcases hr with hr | hr
    · exact absurd (h0.symm.trans hr) Bool.false_ne_true
    · exact absurd ((h0.symm.trans hr.symm).trans h1) Bool.false_ne_true
  · exact hgo

/-- The one loop there is. -/
theorem RunInv.busy {w : RunWorld} (h : RunInv w) {sh : Shell} {script : OpenScript} {off : Nat}
    {below : List Frame} (hstack : w.m.stack = .runNext sh script off :: below) :
    w.m.fw.running = true ∧ w.m.fw.scriptOpen = true ∧ runs below = [] ∧
    LoopIntact w script off := by
  have hcons : runs w.m.stack = (script, off) :: runs below := by rw [hstack, runs_cons_run]
  rcases h with ⟨-, -, hnil⟩ | ⟨h1, hopen, script', off', hone, hloop⟩
  · exact absurd (hcons.symm.trans hnil) (by simp)
  · obtain ⟨⟨rfl, rfl⟩, hbelow⟩ : (script = script' ∧ off = off') ∧ runs below = [] := by
      simpa using hcons.symm.trans hone
    exact ⟨h1, hopen, hbelow, hloop⟩

/-- **A step that keeps the slot keeps the script.** -/
theorem runInv_step {w w' : RunWorld} {e : Event} (h : RunInv w) (hk : SlotKept w.m e)
    (hs : w.next e = some w') : RunInv w' := by
  obtain ⟨hstep, hghost⟩ := next_eq hs
  -- the slot of a loop in progress is not the one that is erased
  have hkept : ∀ {script off}, (script, off) ∈ runs w.m.stack → ∀ slot,
      OpenIn slot script w.m.fw.flash.image →
      read slot.offset scriptSlotSize w'.m.fw.flash.image
        = read slot.offset scriptSlotSize w.m.fw.flash.image := by
    intro script off hmem slot hopen
    exact step_slot hstep fun he => hk slot he _ hmem hopen.1
  cases runStep_of_step hstep with
  | same hr ho hruns hno =>
    obtain ⟨hopened, hsent⟩ := next_goes_on hs (.inr hr)
    rw [hno, Option.toList_none, List.append_nil] at hsent
    rcases h with ⟨h0, hopen, hnil⟩ | ⟨h1, hopen, script, off, hone, hloop⟩
    · exact .inl ⟨hr.trans h0, ho.trans hopen, hruns.trans hnil⟩
    -- the slot reads as before, so the loop sees the same text
    · refine .inr ⟨hr.trans h1, ho.trans hopen, script, off, hruns.trans hone, ?_⟩
      exact hloop.congr (hkept (by rw [hone]; exact List.mem_singleton_self _)) hopened hsent
  | @opened sh slot script below hidle hr ho hslot hstack hbelow =>
    rcases h with ⟨-, -, hnil⟩ | ⟨h1, -⟩
    · obtain ⟨hopened, hsent⟩ : w'.opened = w'.m.scriptText ∧ w'.sent = [] := by
        rcases hghost with ⟨-, -, hgo⟩ | ⟨hno, -⟩
        · exact hgo
        · exact absurd ⟨hidle, hr⟩ hno
      refine .inr ⟨hr, ho, script, 0, ?_, ⟨slot, hslot⟩, ?_, ?_⟩
      · rw [hstack, runs_cons_run, hbelow, hnil]
      · rw [hopened, Machine.scriptText, hstack]
      · rw [hsent]
        rfl
    · exact absurd (hidle.symm.trans h1) Bool.false_ne_true
  | @read sh script off below hstack hoff hr ho hruns hsend =>
    obtain ⟨h1, hopen, hbelow, hloop⟩ := h.busy hstack
    obtain ⟨hopened, hsent⟩ := next_goes_on hs (.inl h1)
    obtain ⟨slot, hslot⟩ := hloop.slot
    have hmem : (script, off) ∈ runs w.m.stack := by
      rw [hstack, runs_cons_run]
      exact List.mem_cons_self
    obtain ⟨hslot', htext⟩ := hslot.congr (hkept hmem slot hslot)
    -- what is still to be sent is the line the loop has just read, and the rest
    have hlen : off < w.opened.length := by rw [← hloop.text, text_length]; exact hoff
    rw [hbelow, hloop.text] at hruns
    refine .inr ⟨hr.trans h1, ho.trans hopen, script, _, hruns, ⟨slot, hslot'⟩, ?_, ?_⟩
    · rw [htext, hloop.text, hopened]
    · rw [hopened, hsent, hsend, hloop.text, List.append_assoc,
        ← commandsFrom_step hlen, hloop.lines]
  | closed hstack hoff hr ho hbelow _ =>
    obtain ⟨-, -, hnil, -⟩ := h.busy hstack
    exact .inl ⟨hr, ho, by rw [hbelow, hnil]⟩

theorem runInv_reachable {w : RunWorld}
    (h : runWorlds.ReachableWhen (fun w e => SlotKept w.m e) w) :
    RunInv w := by
  refine h.inv ?_ fun _ _ _ hinv hk hs => runInv_step hinv hk hs
  rintro _ ⟨flash, rfl⟩
  exact .inl ⟨rfl, rfl, rfl⟩

/-- **A running script does not change as long as its slot is not erased.** What the loop reads
is the text that passed the check, and what it dispatches are the lines of that text, all of
them once it is through. -/
theorem run_intact {w : RunWorld} (h : runWorlds.ReachableWhen (fun w e => SlotKept w.m e) w) :
    RunIntact w ∧
      ∀ sh script off below, w.m.stack = .runNext sh script off :: below → script.bodyLen ≤ off →
        w.sent = scriptCommands w.opened := by
  have hinv := runInv_reachable h
  refine ⟨hinv.intact, fun sh script off below hstack hoff => ?_⟩
  obtain ⟨-, -, -, hloop⟩ := hinv.busy hstack
  have hlen : w.opened.length ≤ off := by rw [← hloop.text, text_length]; exact hoff
  rw [← hloop.lines, commandsFrom_end hlen, List.append_nil]

/-! ## A script that removes itself -/

/-- `script rm lamp`, then a command. -/
def lampText : List UInt8 := CString.ascii "script rm lamp\ngpio 25 high\n"

/-- A flash with the script `lamp` in its first slot. -/
def lampFlash : PicoBLE.Ota.Flash where
  image a := ((sealedHeader (CString.ascii "lamp") lampText).encode ++ lampText).getD
    (a - scriptStorageOffset) 0xFF
  log := []

/-- `run lamp` over BLE, and some ticks. -/
def runLamp (ticks : Nat) : List Event :=
  [.linkUp, .subscribe, .rx (CString.ascii "run lamp")] ++ List.replicate ticks (.tick calm)

/-- Up to the first line the script is what was opened. -/
theorem runLamp_intact :
    ∃ w, LTS.exec RunWorld.next (fun w e => SlotKept w.m e)
        { m := Machine.boot lampFlash, opened := [], sent := [] } (runLamp 12) = some w ∧
      RunIntact w ∧
      ∀ sh script off below, w.m.stack = .runNext sh script off :: below → script.bodyLen ≤ off →
        w.sent = scriptCommands w.opened := by
  obtain ⟨w, hw⟩ := Option.isSome_iff_exists.mp
    (show (LTS.exec RunWorld.next (fun w e => SlotKept w.m e)
      { m := Machine.boot lampFlash, opened := [], sent := [] } (runLamp 12)).isSome = true by
        decide +kernel)
  exact ⟨w, hw, run_intact ((LTS.runs_exec hw).reachableWhen (.init ⟨lampFlash, rfl⟩))⟩

/-- The line removes the script, and the next one that the loop sends is erased flash. -/
theorem runLamp_erased : ∃ w, runWorlds.Reachable w ∧ ¬ RunIntact w ∧
    w.sent = [CString.ascii "script rm lamp", List.replicate 13 0xFF] := by
  have hrun : (LTS.exec RunWorld.next (fun _ _ => True)
      { m := Machine.boot lampFlash, opened := [], sent := [] } (runLamp 15)).map
        (fun w => ((runs w.m.stack).all fun loop => loop.1.text w.m.fw.flash.image =
          w.opened, w.sent))
      = some (false, [CString.ascii "script rm lamp", List.replicate 13 0xFF]) := by decide +kernel
  obtain ⟨w, hw, hview⟩ := Option.map_eq_some_iff.mp hrun
  obtain ⟨htext, hsent⟩ := Prod.mk.inj hview
  refine ⟨w, (LTS.runs_exec hw).reachableWhen (.init ⟨lampFlash, rfl⟩), fun hintact => ?_, hsent⟩
  have hall : ((runs w.m.stack).all fun loop => loop.1.text w.m.fw.flash.image = w.opened) = true :=
    List.all_eq_true.mpr fun loop hloop => decide_eq_true (hintact loop hloop).text
  exact Bool.false_ne_true (htext.symm.trans hall)

end PicoBLE.Cli
