import PicoBLE.Cli.CaptureOwner
import PicoBLE.Cli.Store
import PicoBLE.Cli.TypeAhead

/-!
# Two users of one buffer

`script save` fills `g_cap_buf` line by line and `script fetch` piece by piece.
`cmd_fetch` refuses to begin while a capture is in progress, and nothing stops
a capture, or another fetch, from beginning while it is in `http_get`. Nor does
anything keep the name it was called with, which stays in `g_expand_buf`.

What was meant to be saved is kept beside the machine. Every call of
`scripts_save` is what was meant in every run in which nothing of this happens
to a fetch in progress, and no line that is captured is typed ahead.

* **F1.** A shell that captures has taken the buffer, and only one does.
* **F2.** The buffer and the name of a capture in progress are those meant.
* **F3.** There is one fetch in progress at most, nobody captures meanwhile, and the
  buffer and the name are those meant. Every fetch has its `fetch_state_t`.
* **F4.** Every call of `scripts_save` so far was what was meant.
-/

namespace PicoBLE.Cli

open NorFlash
open CString (ascii)
open PicoBLE.Ota (Flash)
open PicoBLE.Storage

/-! ## Fetches in progress -/

/-- A `script fetch` in `http_get`: its name. -/
def Frame.fetching : Frame → Option Arg
  | .fetch name => some name
  | _ => none

/-- The fetches on a stack. -/
def fetches (fs : List Frame) : List Arg := fs.filterMap Frame.fetching

theorem fetching_of_not_holds (f : Frame) (h : f.holds = false) : f.fetching = none := by
  cases f with
  | fetch _ => exact absurd h.symm Bool.false_ne_true
  | _ => rfl

theorem fetches_holders (fs : List Frame) : fetches (holders fs) = fetches fs :=
  filterMap_holders fetching_of_not_holds fs

theorem fetches_append (fs gs : List Frame) : fetches (fs ++ gs) = fetches fs ++ fetches gs :=
  List.filterMap_append ..

theorem fetches_cons_fetch (name : Arg) (fs : List Frame) :
    fetches (.fetch name :: fs) = name :: fetches fs := rfl

/-! ## What was meant -/

/-- What the capture and the fetch in progress are to save. -/
structure Meant where
  /-- The name that `script save` was called with, and the lines typed since. -/
  capName : List UInt8
  capLines : List (List UInt8)
  /-- The name that `script fetch` was called with, and what `http_get` has delivered since. -/
  fetchName : List UInt8
  fetched : List UInt8

/-- The text that lines make. -/
def textOf (lines : List (List UInt8)) : List UInt8 := lines.flatMap (· ++ [10])

/-- The piece that `http_get` hands to `fetch_chunk`. -/
def Event.piece : Event → Option (List UInt8)
  | .chunk data => some data
  | .chunkBelow data => some data
  | _ => none

def Meant.next (g : Meant) (w : TypeWorld) (e : Event) : Meant :=
  match w.m.deed e with
  | .begun _ name => { g with capName := w.m.fw.str name, capLines := [] }
  | .captured sh _ => { g with capLines := g.capLines ++ [(w.typed sh).text] }
  | .fetching name => { g with fetchName := w.m.fw.str name, fetched := [] }
  | _ => { g with fetched := g.fetched ++ e.piece.getD [] }

/-- The name and the text that a call of `scripts_save` in this step is to save. -/
def Meant.saving (g : Meant) : Event → List UInt8 × List UInt8
  | .httpDone _ _ => (g.fetchName, g.fetched)
  | _ => (g.capName, textOf g.capLines)

/-- A call of `scripts_save`. -/
structure Saved where
  /-- What was meant. -/
  name : List UInt8
  body : List UInt8
  /-- What it was called with. -/
  calledName : List UInt8
  calledBody : List UInt8
  /-- What it returned, and the flash afterwards. -/
  ok : Bool
  flash : Flash

/-- What was meant is what was saved. -/
structure Saved.Right (s : Saved) : Prop where
  name_eq : s.calledName = s.name
  body_eq : s.calledBody = s.body
  stored : s.ok = true → scriptsLoad s.name none s.flash.image = some s.body

/-- The machine with the reference for what is typed, what is meant, and the calls so far. -/
structure FetchWorld where
  t : TypeWorld
  meant : Meant
  saves : List Saved

/-- The call of `scripts_save` in a step. -/
def FetchWorld.saved (w : FetchWorld) (e : Event) (flash : Flash) : Option Saved :=
  match w.t.m.storeCall e with
  | some (.save ok name body) =>
    some { name := (w.meant.saving e).1, body := (w.meant.saving e).2, calledName := name,
           calledBody := body, ok := (scriptsSave ok name (some body) w.t.m.fw.flash).2,
           flash := flash }
  | _ => none

def FetchWorld.next (w : FetchWorld) (e : Event) : Option FetchWorld :=
  (w.t.next e).map fun t' =>
    { t := t', meant := w.meant.next w.t e, saves := w.saves ++ (w.saved e t'.m.fw.flash).toList }

def FetchWorld.boot (flash : Flash) : FetchWorld where
  t := TypeWorld.boot flash
  meant := { capName := [], capLines := [], fetchName := [], fetched := [] }
  saves := []

def fetchWorlds : LTS FetchWorld Event :=
  LTS.ofFun (fun w => ∃ flash, w = FetchWorld.boot flash) FetchWorld.next

/-- The step calls `http_get`. -/
def Machine.callsHttpGet (m : Machine) : Event → Bool
  | .httpGet => true
  | e =>
    match m.deed e with
    | .fetching _ => true
    | _ => false

/-- The shell that captures a line in the step. -/
def Deed.captures : Deed → Option Shell
  | .captured sh _ => some sh
  | _ => none

/-- A line that is captured is not typed ahead: no earlier one of its shell is with `end_of_line`,
and nothing was thrown away when the last one returned. And while a fetch is in progress no capture
begins, `http_get` is not called again, and nothing is written to the name. -/
def FetchKept (w : FetchWorld) (e : Event) : Prop :=
  (∀ sh ∈ (w.t.m.deed e).captures, (w.t.typed sh).busy = false ∧ (w.t.typed sh).lost = false) ∧
    (fetches w.t.m.stack ≠ [] → (w.t.m.deed e).begins = none ∧
      w.t.m.callsHttpGet e = false ∧ ∀ name ∈ fetches w.t.m.stack, ArgSafe w.t.m e name)

instance (w : FetchWorld) (e : Event) : Decidable (FetchKept w e) :=
  inferInstanceAs (Decidable ((∀ sh ∈ (_ : Option Shell), _) ∧ (_ → _)))

/-! ## The buffer -/

/-- A line more. -/
theorem Capture.append_text {c : Capture} {line : List UInt8}
    (h : c.len + line.length + 1 ≤ scriptBodyMax) :
    (c.append line).text = c.text ++ (line ++ [10]) := by
  have hfit : c.len + line.length ≤ scriptBodyMax + 1 := by omega
  have hlt : c.len + line.length < (c.buf.write c.len line).bytes.length := by
    rw [(c.buf.write c.len line).size]
    omega
  show ((c.buf.write c.len line).bytes.set (c.len + line.length) 10).take
    (c.len + line.length + 1) = _
  rw [List.take_add_one, List.take_set_of_le (Nat.le_refl _), Buffer.write_take hfit,
    List.append_assoc]
  simp [hlt, Capture.text]

/-- A piece more, or one that is too much. -/
theorem fetchChunk_fetched {data : List UInt8} {fw : Fw}
    (h : (fetchChunk data fw).fetchState.overflow = false) :
    (fetchChunk data fw).cap.fetched (fetchChunk data fw).fetchState.bytes =
      fw.cap.fetched fw.fetchState.bytes ++ data := by
  unfold fetchChunk at h ⊢
  dsimp only at h ⊢
  split at h
  · exact absurd h.symm Bool.false_ne_true
  · next hroom =>
    rw [if_neg hroom]
    exact Buffer.write_take (Nat.le_succ_of_le (Nat.le_of_not_lt hroom))

/-- It is counted in a state that is there. -/
theorem fetchChunk_length (data : List UInt8) {fw : Fw} (h : fw.fetches ≠ []) :
    (fetchChunk data fw).fetches.length = fw.fetches.length := by
  have hlen : fw.fetches.tail.length + 1 = fw.fetches.length := by
    rw [List.length_tail]
    exact Nat.sub_add_cancel (List.length_pos_iff.mpr h)
  unfold fetchChunk
  dsimp only
  split <;> exact hlen

/-! ## What a step does to it -/

/-- What a step does to the buffer, to who captures, and to the fetches. -/
inductive BufferStep (m : Machine) (e : Event) (m' : Machine) : Prop where
  /-- Nothing, apart from a reset. -/
  | same (hdeed : m.deed e = .nothing ∨ ∃ name, m.deed e = .removed name) (he : e.piece = none)
      (hcap : m'.fw.cap = m.fw.cap)
      (hsub : ∀ sh, (m'.fw.ctx sh).capturing = true → (m.fw.ctx sh).capturing = true)
      (hstates : m'.fw.fetches = m.fw.fetches) (hf : fetches m'.stack = fetches m.stack)
  /-- A line for the capture. -/
  | captured {sh : Shell} {line : List UInt8} {t : Tick} {fw₀ : Fw}
      (hdeed : m.deed e = .captured sh line)
      (hcap : (m.fw.ctx sh).capturing = true) (hq : Quiet m.fw fw₀)
        (hfw : m'.fw = captureLineCb t sh line fw₀)
      (hf : fetches m'.stack = fetches m.stack)
  /-- A capture begins. -/
  | begun {sh : Shell} {name : Arg} (hdeed : m.deed e = .begun sh name)
      (hgo : saveRefused m.fw (m.fw.str name) = false)
      (hfw : m'.fw = m.fw.beginCapture sh (m.fw.str name)) (hf : fetches m'.stack = fetches m.stack)
  /-- A fetch begins. -/
  | fetching {name : Arg} {t : Tick} (hdeed : m.deed e = .fetching name)
      (hgo : fetchRefused t m.fw (m.fw.str name) = false) (he : e.piece = none)
      (hfw : m'.fw = { m.fw with fetches := { bytes := 0, overflow := false } :: m.fw.fetches })
      (hf : fetches m'.stack = name :: fetches m.stack)
  /-- A piece for the fetch. -/
  | chunk {data : List UInt8} (hdeed : m.deed e = .nothing) (he : e.piece = some data)
      (hbusy : fetches m.stack ≠ [] ∨ m.fw.fetches ≠ []) (hgo : m.fw.fetchState.overflow = false)
      (hfw : m'.fw = fetchChunk data m.fw) (hf : m'.stack = m.stack)
  /-- The fetch ends. -/
  | done {name : Arg} (hdeed : m.deed e = .nothing) (he : e.piece = none)
      (hcap : m'.fw.cap = m.fw.cap)
      (hctx : m'.fw.ctx = m.fw.ctx) (hstates : m'.fw.fetches = m.fw.fetches.tail)
      (hf : fetches m.stack = name :: fetches m'.stack)

theorem fetches_cons_of_not {f : Frame} (h : f.holds = false) (fs : List Frame) :
    fetches (f :: fs) = fetches fs :=
  List.filterMap_cons_none (fetching_of_not_holds f h)

theorem reset_capturing {fw : Fw} {sh other : Shell}
    (h : ((fw.setCtx sh (cliReset (fw.ctx sh))).ctx other).capturing = true) :
    (fw.ctx other).capturing = true := by
  by_cases heq : other = sh
  · rw [heq, Fw.setCtx_self] at h
    exact absurd h Bool.false_ne_true
  · rw [Fw.setCtx_of_ne fw _ heq] at h
    exact h

/-- What a step does to the fetches is what it does to the holders: the running frame's own,
and those it pushes. -/
theorem bufferStep_of_step {m m' : Machine} {e : Event} (hs : m.step e = some m') :
    BufferStep m e m' := by
  cases step_cases hs with
  | @tick t f below r hstack hrun =>
    have hdeed := deed_tick t hstack
    have hold : f.holds = false → fetches m.stack = fetches below := by
      intro hf
      rw [hstack, fetches_cons_of_not hf]
    have hpushed : ∀ {fs}, holders r.push = fs → fetches r.push = fetches fs := by
      intro fs hfs
      rw [← fetches_holders r.push, hfs]
    have hnew : ∀ {fs}, fetches r.push = fs →
        fetches (r.resume below).stack = fs ++ fetches below := by
      intro fs hfs
      rw [Ran.resume, fetches_append, hfs]
    have hsame : f.holds = false → fetches r.push = [] →
        fetches (r.resume below).stack = fetches m.stack := by
      intro hf hfs
      rw [hnew hfs, hold hf]
      rfl
    cases runFrame_effect hrun with
    | quiet hf hd hq hpush =>
      exact .same (.inl (hdeed.trans hd)) rfl hq.cap (fun sh hsh =>
        (hq.capturing sh).symm.trans hsh)
        hq.fetches (hsame hf (hpushed hpush))
    | captured hf hd hcap hq he hpush =>
      exact .captured (hdeed.trans hd) hcap hq he (hsame hf (hpushed hpush))
    | begun hf hd hgo he hpush => exact .begun (hdeed.trans hd) hgo he (hsame hf (hpushed hpush))
    | removed hf hd he hpush =>
      refine .same (.inr ⟨_, hdeed.trans hd⟩) rfl ?_ (fun sh hsh => ?_) ?_
        (hsame hf (hpushed hpush))
      · rw [Ran.resume, he]
      · rw [Ran.resume, he] at hsh
        exact hsh
      · rw [Ran.resume, he]
    | fetching hf hd hgo he hpush =>
      refine .fetching (hdeed.trans hd) hgo rfl he ?_
      rw [hnew (hpushed hpush), hold hf]
      rfl
    | opened hf hd _ _ _ he hpush =>
      refine .same (.inl (hdeed.trans hd)) rfl ?_ (fun sh hsh => ?_) ?_
        (hsame hf (by rw [hpush]; rfl))
      · rw [Ran.resume, he]
      · rw [Ran.resume, he] at hsh
        exact hsh
      · rw [Ran.resume, he]
    -- the loop of `run` holds on to a script, not to the buffer
    | read hf _ hq hpush =>
      subst hf
      refine .same (.inl hdeed) rfl hq.cap (fun sh hsh => (hq.capturing sh).symm.trans hsh)
        hq.fetches ?_
      rw [hnew (hpushed hpush), hstack]
      rfl
    | closed hf _ he hpush =>
      subst hf
      refine .same (.inl hdeed) rfl ?_ (fun sh hsh => ?_) ?_ ?_
      · rw [Ran.resume, he]
        rfl
      · rw [Ran.resume, he] at hsh
        exact hsh
      · rw [Ran.resume, he]
        rfl
      · rw [Ran.resume, hpush, hstack]
        rfl
  | subscribe _ => exact .same (.inl rfl) rfl rfl (fun _ => reset_capturing) rfl rfl
  | linkDown => exact .same (.inl rfl) rfl rfl (fun _ => @reset_capturing m.fw _ _) rfl rfl
  | usbFirst _ => exact .same (.inl rfl) rfl rfl (fun _ => @reset_capturing m.fw _ _) rfl rfl
  | @fire target _ =>
    have hq :=
      quiet_dispatchLine .bg (Buffer.ofString (PicoBLE.System.bindTargetMax + 1) target) m.fw
    refine .same (.inl rfl) rfl hq.cap (fun sh hsh => (hq.capturing sh).symm.trans hsh)
      hq.fetches ?_
    rw [Ran.resume, fetches_append, ← fetches_holders, dispatchLine_holders]
    rfl
  | @chunk data name below hstack hgo =>
    exact .chunk rfl rfl (.inl (by rw [hstack]; exact List.cons_ne_nil _ _)) hgo rfl rfl
  | chunkBelow _ hne hgo => exact .chunk rfl rfl (.inr hne) hgo rfl rfl
  | @httpDone t ok name below hstack _ =>
    obtain ⟨flash, rc, hdone⟩ := fetchDone_fw t ok name m.fw
    rw [hdone]
    refine @BufferStep.done m _ _ name rfl rfl rfl rfl rfl ?_
    rw [hstack]
    rfl
  | linkUp => exact .same (.inl rfl) rfl rfl (fun _ h => h) rfl rfl
  | rx _ => exact .same (.inl rfl) rfl rfl (fun _ h => h) rfl rfl
  | usb _ => exact .same (.inl rfl) rfl rfl (fun _ h => h) rfl rfl
  | httpGet _ => exact .same (.inl rfl) rfl rfl (fun _ h => h) rfl rfl
  | leafDone hstack => exact .same (.inl rfl) rfl rfl (fun _ h => h) rfl (by rw [hstack]; rfl)
  | elsewhere _ => exact .same (.inl rfl) rfl rfl (fun _ h => h) rfl rfl

theorem captureLineCb_fetches (t : Tick) (sh : Shell) (line : List UInt8) (fw : Fw) :
    (captureLineCb t sh line fw).fetches = fw.fetches := by
  rcases captureLineCb_cases t sh line fw with ⟨-, he⟩ | ⟨-, he⟩ | ⟨-, -, he⟩
  · rw [he]; rfl
  · rw [he]; rfl
  · rw [he]

/-- Every fetch in progress has its `fetch_state_t`. -/
def Machine.Counted (m : Machine) : Prop := m.fw.fetches.length = (fetches m.stack).length

theorem counted_step {m m' : Machine} {e : Event} (h : m.Counted) (hs : m.step e = some m') :
    m'.Counted := by
  unfold Machine.Counted at h ⊢
  cases bufferStep_of_step hs with
  | same _ _ _ _ hstates hf => rw [hstates, hf, h]
  | @captured sh line t fw₀ _ _ hq hfw hf => rw [hfw, captureLineCb_fetches, hq.fetches, hf, h]
  | begun _ _ hfw hf => rw [hfw, hf]; exact h
  | fetching _ _ _ hfw hf => rw [hfw, hf, List.length_cons, List.length_cons, h]
  | @chunk data _ _ hbusy _ hfw hf =>
    have hne : m.fw.fetches ≠ [] := by
      rcases hbusy with hbusy | hne
      · intro hnil
        rw [hnil] at h
        exact hbusy (List.length_eq_zero_iff.mp h.symm)
      · exact hne
    rw [hfw, hf, fetchChunk_length data hne, h]
  | done _ _ _ _ hstates hf =>
    rw [hstates, List.length_tail, h, hf, List.length_cons, Nat.add_sub_cancel]

/-! ## The invariant -/

/-- F1 and F2. -/
structure CaptureInv (fw : Fw) (g : Meant) : Prop where
  /-- F1 -/
  taken : ∀ sh, (fw.ctx sh).capturing = true → fw.cap.ownerTaken = true
  single : ∀ sh sh', (fw.ctx sh).capturing = true → (fw.ctx sh').capturing = true → sh' = sh
  /-- F2 -/
  name : ∀ sh, (fw.ctx sh).capturing = true → fw.cap.name = g.capName
  text : ∀ sh, (fw.ctx sh).capturing = true → fw.cap.text = textOf g.capLines

/-- Nobody captures. -/
def Fw.idle (fw : Fw) : Prop := ∀ sh, (fw.ctx sh).capturing = false

/-- While nobody captures there is nothing to keep. -/
theorem Fw.idle.captureInv {fw : Fw} (h : fw.idle) (g : Meant) : CaptureInv fw g := by
  have hno : ∀ sh, (fw.ctx sh).capturing ≠ true := fun sh => by rw [h sh]; exact Bool.false_ne_true
  exact ⟨fun sh hsh => absurd hsh (hno sh), fun sh _ hsh => absurd hsh (hno sh),
    fun sh hsh => absurd hsh (hno sh), fun sh hsh => absurd hsh (hno sh)⟩

theorem CaptureInv.idle {fw : Fw} {g : Meant} (h : CaptureInv fw g)
    (ht : fw.cap.ownerTaken = false) :
    fw.idle := by
  intro sh
  cases hsh : (fw.ctx sh).capturing with
  | false => rfl
  | true => exact absurd (ht.symm.trans (h.taken sh hsh)) Bool.false_ne_true

theorem CaptureInv.congr {fw fw' : Fw} {g g' : Meant} (h : CaptureInv fw g)
    (hcap : fw'.cap = fw.cap)
    (hsub : ∀ sh, (fw'.ctx sh).capturing = true → (fw.ctx sh).capturing = true)
    (hname : g'.capName = g.capName) (hlines : g'.capLines = g.capLines) : CaptureInv fw' g' := by
  refine ⟨fun sh hsh => ?_, fun sh sh' hsh hsh' => ?_, fun sh hsh => ?_, fun sh hsh => ?_⟩
  · rw [hcap]; exact h.taken sh (hsub sh hsh)
  · exact h.single sh sh' (hsub sh hsh) (hsub sh' hsh')
  · rw [hcap, hname]; exact h.name sh (hsub sh hsh)
  · rw [hcap, hlines]; exact h.text sh (hsub sh hsh)

/-- **A line more**, or the end of the capture. -/
theorem CaptureInv.captured {fw fw' : Fw} {g : Meant} {sh : Shell} (h : CaptureInv fw g)
    (hq : Quiet fw fw') (hsh : (fw.ctx sh).capturing = true) (t : Tick) (line : List UInt8) :
    CaptureInv (captureLineCb t sh line fw') { g with capLines := g.capLines ++ [line] } := by
  have hend : ∀ fw₀ : Fw, fw₀.ctx = fw'.ctx →
      CaptureInv (fw₀.endCapture sh) { g with capLines := g.capLines ++ [line] } := by
    intro fw₀ hctx
    refine Fw.idle.captureInv (endCapture_idle fun other hother => h.single sh other hsh ?_) _
    rw [hctx] at hother
    exact (hq.capturing other).symm.trans hother
  rcases captureLineCb_cases t sh line fw' with ⟨-, he⟩ | ⟨-, he⟩ | ⟨-, hroom, he⟩
  · rw [he]; exact hend _ rfl
  · rw [he]; exact hend fw' rfl
  · rw [he]
    have hcap := hq.cap
    have hsub : ∀ other, (fw'.ctx other).capturing = true → (fw.ctx other).capturing = true :=
      fun other hother => (hq.capturing other).symm.trans hother
    refine ⟨fun other hother => ?_, fun other other' hother hother' => ?_, fun other hother => ?_,
      fun other hother => ?_⟩
    · show fw'.cap.ownerTaken = true
      rw [hcap]
      exact h.taken other (hsub other hother)
    · exact h.single other other' (hsub other hother) (hsub other' hother')
    · show fw'.cap.name = g.capName
      rw [hcap]
      exact h.name other (hsub other hother)
    · show (fw'.cap.append line).text = textOf (g.capLines ++ [line])
      rw [Capture.append_text hroom, hcap, h.text other (hsub other hother), textOf, textOf,
        List.flatMap_append, List.flatMap_singleton]

/-- The first lines are yet to come. -/
theorem captureInv_begun {fw : Fw} {g : Meant} (hidle : fw.idle) {name : List UInt8}
    (hgo : saveRefused fw name = false) (sh : Shell) :
    CaptureInv (fw.beginCapture sh name) { g with capName := name, capLines := [] } := by
  refine ⟨fun _ _ => rfl, fun other other' hother hother' => ?_, fun _ _ => ?_, fun _ _ => rfl⟩
  · rw [(beginCapture_only hidle name sh other).mp hother,
      (beginCapture_only hidle name sh other').mp hother']
  · show name.take scriptNameMax = name
    rw [saveRefused, Bool.or_eq_false_iff, decide_eq_false_iff_not] at hgo
    exact List.take_of_length_le (Nat.le_of_not_lt hgo.2)

/-- F3, of the fetches in progress. -/
def FetchesInv (fs : List Arg) (fw : Fw) (g : Meant) : Prop :=
  fs = [] ∨ ∃ name, fs = [name] ∧ fw.idle ∧ fw.str name = g.fetchName ∧
    (fw.fetchState.overflow = false → fw.cap.fetched fw.fetchState.bytes = g.fetched)

structure FetchInv (w : FetchWorld) : Prop where
  typed : ShellsInv w.t
  capture : CaptureInv w.t.m.fw w.meant
  /-- F3 -/
  fetch : FetchesInv (fetches w.t.m.stack) w.t.m.fw w.meant
  counted : w.t.m.Counted
  /-- F4 -/
  saves : ∀ s ∈ w.saves, s.Right

theorem deed_captured {f : Frame} {t : Tick} {fw : Fw} {sh : Shell} {line : List UInt8}
    (h : f.deed t fw = .captured sh line) :
    f.handing fw = some (sh, line) ∧ (fw.ctx sh).capturing = true := by
  unfold Frame.deed at h
  split at h
  · next hand =>
    split at h
    · next hcap =>
      obtain ⟨rfl, rfl⟩ := Deed.captured.inj h
      exact ⟨hand, hcap⟩
    · exact absurd h (by simp)
  · split at h
    · next sh' sub _ =>
      -- no subcommand of `script` hands a line over
      have hsub : ∀ {p : Prop} [Decidable p] {d : Deed}, (if p then Deed.nothing
          else d) = .captured sh line →
          d = .captured sh line := by
        intro p _ d hd
        split at hd
        · exact absurd hd (by simp)
        · exact hd
      cases sub with
      | save name => exact absurd (hsub h) (by simp)
      | fetch name => exact absurd (hsub h) (by simp)
      | rm name => exact absurd h (by simp [ScriptSub.deed])
      | _ => exact absurd h (by simp [ScriptSub.deed])
    · exact absurd h (by simp)

/-- The line that is captured is the line that was typed. -/
theorem captured_typed {w : TypeWorld} {e : Event} (h : ShellsInv w) {sh : Shell}
    {line : List UInt8} (hdeed : w.m.deed e = .captured sh line) (hbusy : (w.typed sh).busy = false)
    (hlost : (w.typed sh).lost = false) : (w.typed sh).text = line := by
  have hheld := (h sh).held hlost hbusy
  unfold Machine.deed at hdeed
  cases e with
  | tick t =>
    dsimp only at hdeed
    cases hstack : w.m.stack with
    | nil =>
      rw [hstack] at hdeed
      exact absurd hdeed (by simp)
    | cons f below =>
      rw [hstack] at hdeed
      have hand := (deed_captured hdeed).1
      unfold Frame.handing at hand
      split at hand
      · split at hand
        · -- `end_of_line` hands over what is in the buffer
          obtain ⟨text, htext, heq⟩ := Option.map_eq_some_iff.mp hand
          obtain ⟨rfl, rfl⟩ := Prod.mk.inj heq
          rw [hheld.handed (h _).nul] at htext
          split at htext
          · exact Option.some.inj htext
          · exact absurd htext (by simp)
        · exact absurd hand (by simp)
      · exact absurd hand (by simp)
  | _ => exact absurd hdeed (by simp)

/-! ## Every step -/

theorem typeNext_step {w w' : TypeWorld} {e : Event} (h : w.next e = some w') :
    w.m.step e = some w'.m := by
  obtain ⟨m', hstep, rfl⟩ := Option.map_eq_some_iff.mp h
  exact hstep

theorem meant_same {g : Meant} {w : TypeWorld} {e : Event}
    (hdeed : w.m.deed e = .nothing ∨ ∃ name, w.m.deed e = .removed name) (he : e.piece = none) :
    g.next w e = g := by
  unfold Meant.next
  rw [he]
  rcases hdeed with hdeed | ⟨name, hdeed⟩
  · rw [hdeed]
    exact congrArg (Meant.mk _ _ _) (List.append_nil _)
  · rw [hdeed]
    exact congrArg (Meant.mk _ _ _) (List.append_nil _)

/-- A fetch goes on while nothing touches the buffer and its name. -/
theorem FetchesInv.congr {fs : List Arg} {fw fw' : Fw} {g g' : Meant} (h : FetchesInv fs fw g)
    (hsub : ∀ sh, (fw'.ctx sh).capturing = true → (fw.ctx sh).capturing = true)
    (hcap : fs ≠ [] → fw'.cap = fw.cap) (hstates : fw'.fetches = fw.fetches)
    (hstr : ∀ name ∈ fs, fw'.str name = fw.str name)
    (hname : g'.fetchName = g.fetchName) (hfetched : g'.fetched = g.fetched) :
    FetchesInv fs fw' g' := by
  rcases h with h | ⟨name, hfs, hidle, hmeant, hbuf⟩
  · exact .inl h
  · have hstate : fw'.fetchState = fw.fetchState := by rw [Fw.fetchState, Fw.fetchState, hstates]
    refine .inr ⟨name, hfs, fun sh => ?_, ?_, fun ho => ?_⟩
    · rw [Bool.eq_false_iff]
      intro hsh
      exact absurd ((hidle sh).symm.trans (hsub sh hsh)) Bool.false_ne_true
    · rw [hstr name (by rw [hfs]; exact List.mem_singleton_self _), hname, hmeant]
    · rw [hstate] at ho ⊢
      rw [hcap (by rw [hfs]; exact List.cons_ne_nil _ _), hfetched, hbuf ho]

/-- A fetch in progress is the only one. -/
theorem FetchesInv.only {name : Arg} {rest : List Arg} {fw : Fw} {g : Meant}
    (h : FetchesInv (name :: rest) fw g) :
    rest = [] ∧ fw.idle ∧ fw.str name = g.fetchName ∧
      (fw.fetchState.overflow = false → fw.cap.fetched fw.fetchState.bytes = g.fetched) := by
  rcases h with hnil | ⟨name', hone, hidle, hname, hbuf⟩
  · exact absurd hnil (List.cons_ne_nil _ _)
  · obtain ⟨rfl, hrest⟩ := List.cons.inj hone
    exact ⟨hrest, hidle, hname, hbuf⟩

/-- **A piece more** for the fetch, or one that is too much for it. -/
theorem FetchesInv.chunk {fs : List Arg} {fw : Fw} {g : Meant}
    (h : FetchesInv fs fw g) (hne : fs ≠ []) (data : List UInt8)
    (hgo : fw.fetchState.overflow = false)
    (hstr : ∀ name ∈ fs, (fetchChunk data fw).str name = fw.str name) :
    (fetchChunk data fw).idle ∧
      FetchesInv fs (fetchChunk data fw) { g with fetched := g.fetched ++ data } := by
  obtain ⟨name, rest, rfl⟩ := List.exists_cons_of_ne_nil hne
  obtain ⟨rfl, hidle, hname, hbuf⟩ := h.only
  have hidle' : (fetchChunk data fw).idle := by
    obtain ⟨buf, states, hfw⟩ := fetchChunk_fw data fw
    rw [hfw]
    exact hidle
  refine ⟨hidle', .inr ⟨name, rfl, hidle', (hstr name List.mem_cons_self).trans hname,
    fun ho => ?_⟩⟩
  rw [fetchChunk_fetched ho, hbuf hgo]

/-- F1 to F3, of every step. -/
theorem bufferInv_step {w : FetchWorld} {m' : Machine} {e : Event} (h : FetchInv w)
    (hk : FetchKept w e) (hs : w.t.m.step e = some m') :
    CaptureInv m'.fw (w.meant.next w.t e) ∧
    FetchesInv (fetches m'.stack) m'.fw (w.meant.next w.t e) := by
  obtain ⟨htype, hfetch⟩ := hk
  have hstr : ∀ name ∈ fetches w.t.m.stack, m'.fw.str name = w.t.m.fw.str name :=
    fun name hmem => step_str hs ((hfetch (List.ne_nil_of_mem hmem)).2.2 name hmem)
  cases bufferStep_of_step hs with
  | same hdeed he hcap hsub hstates hf =>
    rw [meant_same hdeed he, hf]
    exact ⟨h.capture.congr hcap hsub rfl rfl,
      h.fetch.congr hsub (fun _ => hcap) hstates hstr rfl rfl⟩
  | @captured sh line t fw₀ hdeed hcap hq hfw hf =>
    have hmeant : w.meant.next w.t e = { w.meant with capLines := w.meant.capLines ++ [line] } := by
      unfold Meant.next
      rw [hdeed]
      dsimp only
      obtain ⟨hbusy, hlost⟩ := htype sh (by rw [hdeed]; rfl)
      rw [captured_typed h.typed hdeed hbusy hlost]
    rw [hmeant, hfw, hf]
    refine ⟨h.capture.captured hq hcap t line, ?_⟩
    -- somebody captures, so no fetch is in progress
    rcases h.fetch with hnil | ⟨name, -, hidle, -⟩
    · exact .inl hnil
    · exact absurd ((hidle sh).symm.trans hcap) Bool.false_ne_true
  | @begun sh name hdeed hgo hfw hf =>
    -- the condition: none begins during a fetch
    have hnil : fetches w.t.m.stack = [] := by
      by_contra hne
      have hno := (hfetch hne).1
      rw [hdeed] at hno
      exact absurd hno (by simp [Deed.begins])
    have hmeant :
        w.meant.next w.t e = { w.meant with capName := w.t.m.fw.str name, capLines := [] } := by
      unfold Meant.next
      rw [hdeed]
    rw [hmeant, hfw, hf]
    exact ⟨captureInv_begun (h.capture.idle (saveRefused_taken hgo)) hgo sh, .inl hnil⟩
  | @fetching name t hdeed hgo he hfw hf =>
    have hnil : fetches w.t.m.stack = [] := by
      by_contra hne
      have hno := (hfetch hne).2.1
      have hcalls : w.t.m.callsHttpGet e = true := by
        unfold Machine.callsHttpGet
        split
        · rfl
        · rw [hdeed]
      exact absurd (hno.symm.trans hcalls) Bool.false_ne_true
    have hmeant :
        w.meant.next w.t e = { w.meant with fetchName := w.t.m.fw.str name, fetched := [] } := by
      unfold Meant.next
      rw [hdeed]
    have hfree : w.t.m.fw.cap.ownerTaken = false := by
      rw [fetchRefused, Bool.or_eq_false_iff] at hgo
      exact hgo.2
    rw [hmeant, hfw, hf, hnil]
    exact ⟨h.capture.congr rfl (fun _ hsh => hsh) rfl rfl,
      .inr ⟨name, rfl, h.capture.idle hfree, rfl, fun _ => rfl⟩⟩
  | @chunk data hdeed he hbusy hgo hfw hf =>
    have hne : fetches w.t.m.stack ≠ [] := by
      rcases hbusy with hne | hne
      · exact hne
      · intro hnil
        have hcounted := h.counted
        rw [Machine.Counted, hnil] at hcounted
        exact hne (List.length_eq_zero_iff.mp hcounted)
    have hmeant : w.meant.next w.t e = { w.meant with fetched := w.meant.fetched ++ data } := by
      unfold Meant.next
      rw [hdeed, he]
      rfl
    rw [hfw] at hstr ⊢
    rw [hmeant, hf]
    obtain ⟨hidle, hmore⟩ := h.fetch.chunk hne data hgo hstr
    exact ⟨hidle.captureInv _, hmore⟩
  | @done name hdeed he hcap hctx hstates hf =>
    rw [meant_same (.inl hdeed) he]
    have hfetches := h.fetch
    rw [hf] at hfetches
    exact ⟨h.capture.congr hcap (fun sh hsh => by rw [← hctx]; exact hsh) rfl rfl,
      .inl hfetches.only.1⟩

/-- The store is called with what was meant. -/
theorem FetchInv.call_meant {w : FetchWorld} {m' : Machine} {e : Event} (h : FetchInv w)
    (hs : w.t.m.step e = some m') {ok : Nat → Bool} {name body : List UInt8}
    (hcall : w.t.m.storeCall e = some (.save ok name body)) : (name, body) = w.meant.saving e := by
  cases step_cases hs with
  | @tick t f below r hstack hrun =>
    -- `.end`, in a shell that captures
    have hf : f.storeCall t w.t.m.fw = some (.save ok name body) := by
      rw [Machine.storeCall, hstack] at hcall
      exact hcall
    unfold Frame.storeCall at hf
    split at hf
    · next sh line hdeed =>
      have hcap := (deed_captured hdeed).2
      split at hf
      · obtain ⟨-, rfl, rfl⟩ := StoreCall.save.inj (Option.some.inj hf)
        exact Prod.ext (h.capture.name sh hcap) (h.capture.text sh hcap)
      · exact absurd hf (by simp)
    · exact absurd hf (by simp)
    · exact absurd hf (by simp)
  | @httpDone t done name' below hstack hdone =>
    rw [Machine.storeCall, hstack] at hcall
    dsimp only at hcall
    split at hcall
    · next htrue =>
      obtain ⟨-, rfl, rfl⟩ := StoreCall.save.inj (Option.some.inj hcall)
      -- `HTTP_OK`, and everything fitted
      have hfetches := h.fetch
      rw [hstack, fetches_cons_fetch] at hfetches
      obtain ⟨-, -, hname, hbuf⟩ := hfetches.only
      have hfit : w.t.m.fw.fetchState.overflow = false :=
        Bool.eq_false_iff.mpr fun ho => hdone ⟨htrue, ho⟩
      exact Prod.ext hname (hbuf hfit)
    · exact absurd hcall (by simp)
  | _ => exact absurd hcall (by simp [Machine.storeCall])

/-- **F4, of every step**: a call of `scripts_save` is what was meant. -/
theorem FetchInv.saved_right {w : FetchWorld} {m' : Machine} {e : Event} (h : FetchInv w)
    (hs : w.t.m.step e = some m') {s : Saved} (hsaved : w.saved e m'.fw.flash = some s) :
    s.Right := by
  have hsome : ∃ ok name body, w.t.m.storeCall e = some (.save ok name body) := by
    unfold FetchWorld.saved at hsaved
    split at hsaved
    · next ok name body hcall => exact ⟨ok, name, body, hcall⟩
    · exact absurd hsaved (by simp)
  obtain ⟨ok, name, body, hcall⟩ := hsome
  have hmeant := h.call_meant hs hcall
  have hname : name = (w.meant.saving e).1 := congrArg Prod.fst hmeant
  have hbody : body = (w.meant.saving e).2 := congrArg Prod.snd hmeant
  unfold FetchWorld.saved at hsaved
  rw [hcall] at hsaved
  obtain rfl := Option.some.inj hsaved
  refine ⟨hname, hbody, fun hok => ?_⟩
  rcases step_flash hs with ⟨c, hc, hflash⟩ | ⟨hnone, -⟩
  · obtain rfl := Option.some.inj (hc.symm.trans hcall)
    dsimp only at hok ⊢
    rw [← hname, ← hbody, hflash]
    exact scriptsSave_load hok
  · exact absurd (hnone.symm.trans hcall) (by simp)

theorem fetchInv_step {w w' : FetchWorld} {e : Event} (h : FetchInv w) (hk : FetchKept w e)
    (hs : w.next e = some w') : FetchInv w' := by
  obtain ⟨t', ht, rfl⟩ := Option.map_eq_some_iff.mp hs
  have hstep := typeNext_step ht
  obtain ⟨hcapture, hfetch⟩ := bufferInv_step h hk hstep
  refine ⟨shellsInv_step h.typed ht, hcapture, hfetch, counted_step h.counted hstep,
    fun s hmem => ?_⟩
  rcases List.mem_append.mp hmem with hmem | hmem
  · exact h.saves s hmem
  · exact h.saved_right hstep (Option.mem_toList.mp hmem)

theorem fetchInv_reachable {w : FetchWorld} (h : fetchWorlds.ReachableWhen FetchKept w) :
    FetchInv w := by
  refine h.inv ?_ fun _ _ _ hinv hk hs => fetchInv_step hinv hk hs
  rintro _ ⟨flash, rfl⟩
  have hidle : (Fw.boot flash).idle := fun _ => rfl
  exact ⟨shellsInv_boot flash, hidle.captureInv _, .inl rfl, rfl,
    fun _ hs => absurd hs (by simp [FetchWorld.boot])⟩

/-- **A fetch and a capture do not mix** in runs in which no line that is captured is typed ahead,
no capture and no other `http_get` begins while a fetch is in progress, and nothing is written to
its name: every call of `scripts_save` has the name and the lines typed for it, or the name and
the body fetched for it, and if it succeeds the body can be read under that name. -/
theorem saves_right {w : FetchWorld} (h : fetchWorlds.ReachableWhen FetchKept w) :
    ∀ s ∈ w.saves, s.Right :=
  (fetchInv_reachable h).saves

/-! ## A capture during a fetch -/

/-- There is Wi-Fi. -/
def online : Tick := { flashOk := fun _ => true, wifiUp := true }

/-- A script is fetched over BLE, and the first part of it has come. -/
def fetchingLamp : List Event :=
  [.linkUp, .subscribe, .rx (ascii "repeat 1 script fetch lamp http://h/u")] ++ List.replicate 42
    (.tick online) ++
    [.chunk (ascii "gpio 25 ")]

/-- The second part, and the end. -/
def lampFetched : List Event := [.chunk (ascii "high"), .httpDone online true]

/-- Characters on USB, and a line end. -/
def onUsb (line : String) (ticks : Nat) : List Event :=
  (ascii line).flatMap (fun b => [.usb b, .tick online, .tick online]) ++
    .usb 10 :: List.replicate ticks (.tick online)

theorem lampFetched_right :
    ∃ w, LTS.exec FetchWorld.next FetchKept (FetchWorld.boot erased)
        (fetchingLamp ++ lampFetched) = some w ∧
      ∀ s ∈ w.saves, s.Right := by
  obtain ⟨w, hw⟩ := Option.isSome_iff_exists.mp
    (show (LTS.exec FetchWorld.next FetchKept (FetchWorld.boot erased)
      (fetchingLamp ++ lampFetched)).isSome = true by decide +kernel)
  exact ⟨w, hw, saves_right ((LTS.runs_exec hw).reachableWhen (.init ⟨erased, rfl⟩))⟩

/-- Between the two parts somebody types `script save x` and a line on USB. The line is in the
body that is stored for `lamp`. -/
theorem lampFetched_mixed : ∃ w, fetchWorlds.Reachable w ∧ ∃ s ∈ w.saves, ¬ s.Right ∧
    s.body = ascii "gpio 25 high" ∧ s.calledBody = ascii "no\no 25 high" := by
  have hrun : (LTS.exec FetchWorld.next (fun _ _ => True) (FetchWorld.boot erased)
      (fetchingLamp ++ onUsb "script save x" 5 ++ onUsb "no" 3 ++ lampFetched)).map
        (fun w => w.saves.map fun s => (s.body, s.calledBody))
      = some [(ascii "gpio 25 high", ascii "no\no 25 high")] := by decide +kernel
  obtain ⟨w, hw, hview⟩ := Option.map_eq_some_iff.mp hrun
  obtain ⟨s, hsaves, hs⟩ := List.map_eq_singleton_iff.mp hview
  obtain ⟨hbody, hcalled⟩ := Prod.mk.inj hs
  refine ⟨w, (LTS.runs_exec hw).reachableWhen (.init ⟨erased, rfl⟩), s, ?_, fun hright =>
    ?_, hbody, hcalled⟩
  · rw [hsaves]
    exact List.mem_singleton_self _
  · have heq := hright.body_eq
    rw [hbody, hcalled] at heq
    exact absurd heq (by decide)

end PicoBLE.Cli
