import PicoBLE.Cli.Effects

/-!
# Who writes to `g_expand_buf`

Two things do. Every command line is expanded into it from its first byte on,
over whatever is there, and `set NAME=VALUE` cuts its own argument in two. An
argument that a handler still needs is safe from the first if the expansion
ends before it, and from the second if the cut is not in it.
-/

namespace PicoBLE.Cli

open PicoBLE.System (bindTargetMax)

/-! ## Lines and cuts -/

/-- The tokens of the line that the frame expands when it runs. -/
def Frame.expanding (f : Frame) (fw : Fw) : Option (List (List UInt8)) :=
  match f with
  | .feed sh (b :: _) _ =>
    let c := fw.ctx sh
    if endsLine b c ∧ c.capturing = false ∧ 0 < c.lineLen.1 then
      (lineTokens c.terminate.line).toOption
    else none
  | .runNext _ script off =>
    let line := runLine (script.text fw.flash.image) off
    if off < script.bodyLen ∧ runSkips line = false then
      (lineTokens (Buffer.ofString cliLineMax line)).toOption
    else none
  | _ => none

/-- The index at which the frame cuts an argument when it runs. -/
def Frame.splitting (f : Frame) (fw : Fw) : Option Nat :=
  match f.calling fw with
  | some (_, argv, .cmdSet) => setSplit fw argv
  | _ => none

/-- The tokens of the line that a step expands. -/
def Machine.expanding (m : Machine) : Event → Option (List (List UInt8))
  | .tick _ => m.stack.head?.bind fun f => f.expanding m.fw
  | .fire target => (lineTokens (Buffer.ofString (bindTargetMax + 1) target)).toOption
  | _ => none

/-- The index at which a step cuts an argument. -/
def Machine.splitting (m : Machine) : Event → Option Nat
  | .tick _ => m.stack.head?.bind fun f => f.splitting m.fw
  | _ => none

/-- How much of `g_expand_buf` the expansion of these tokens writes. -/
def Fw.expansionEnd (fw : Fw) (toks : List (List UInt8)) : Nat :=
  (expandArgv fw.vars fw.shell toks fw.expandBuf).2.1

/-- Nothing that the step writes is in this argument. -/
def ArgSafe (m : Machine) (e : Event) (a : Arg) : Prop :=
  (∀ toks ∈ m.expanding e, m.fw.expansionEnd toks ≤ a.ptr) ∧
    ∀ i ∈ m.splitting e, i < a.ptr ∨ a.ptr + (m.fw.str a).length < i

instance (m : Machine) (e : Event) (a : Arg) : Decidable (ArgSafe m e a) :=
  inferInstanceAs (Decidable (_ ∧ _))

/-! ## Arguments that are still to be dispatched -/

/-- The arguments that the frame will pass to `cli_dispatch_argv`, now or in a later turn. -/
def Frame.pending : Frame → List Arg
  | .dispatch _ argv => argv
  | .repeatNext _ sub i n => if i < n then sub else []
  | .repeatCheck _ sub i n => if i + 1 < n then sub else []
  | .whileNext _ cond body i => if i < whileMaxIter then cond ++ body else []
  | .whileCond _ cond body i => body ++ if i + 1 < whileMaxIter then cond else []
  | .whileBody _ cond body i => if i + 1 < whileMaxIter then cond ++ body else []
  | .ifCond _ thenArgv elseArgv => thenArgv ++ elseArgv
  | _ => []

/-- The arguments that a stack still has to dispatch. -/
def pending (fs : List Frame) : List Arg := fs.flatMap Frame.pending

theorem pending_append (fs gs : List Frame) : pending (fs ++ gs) = pending fs ++ pending gs :=
  List.flatMap_append

/-- What running a frame does to `g_expand_buf`, and to what is still to be dispatched. -/
inductive BufEffect (f : Frame) (fw : Fw) (r : Ran) : Prop where
  /-- Nothing; what was to be dispatched still is, or no longer. -/
  | same (hbuf : r.fw.expandBuf = fw.expandBuf) (hpush : pending r.push ⊆ f.pending)
  /-- A line is expanded, and its arguments are to be dispatched. -/
  | line {toks : List (List UInt8)} (hline : f.expanding fw = some toks)
      (hbuf : r.fw.expandBuf = (expandArgv fw.vars fw.shell toks fw.expandBuf).1)
      (hpush : pending r.push ⊆ (expandArgv fw.vars fw.shell toks fw.expandBuf).2.2.getD [])
  /-- `set` cuts its argument. -/
  | split {i : Nat} (hsplit : f.splitting fw = some i)
      (hbuf : r.fw.expandBuf = fw.expandBuf.set i 0)
      (hpush : pending r.push = [])

/-! ## Lines -/

/-- `cli_dispatch_line` either returns before the expansion or expands the tokens. -/
theorem dispatchLine_expands {n : Nat} (sh : Shell) (line : Buffer n) (fw : Fw) :
    ((lineTokens line).toOption = none ∧ (cliDispatchLine sh line fw).fw = fw ∧
      (cliDispatchLine sh line fw).push = []) ∨
    ∃ toks, (lineTokens line).toOption = some toks ∧
      (cliDispatchLine sh line fw).fw
        = { fw with expandBuf := (expandArgv fw.vars fw.shell toks fw.expandBuf).1 } ∧
      pending (cliDispatchLine sh line fw).push
        = (expandArgv fw.vars fw.shell toks fw.expandBuf).2.2.getD [] := by
  rcases dispatchLine_cases sh line fw with
    ⟨rc, htoks, he⟩ | ⟨toks, buf, off, htoks, ⟨hexp, he⟩ | ⟨argv, hexp, he⟩⟩
  · rw [htoks, he]
    exact .inl ⟨rfl, rfl, rfl⟩
  · rw [htoks, he]
    exact .inr ⟨toks, rfl, by rw [hexp]; rfl, by rw [hexp]; rfl⟩
  · rw [htoks, he]
    exact .inr ⟨toks, rfl, by rw [hexp]; rfl, by rw [hexp]; exact List.append_nil _⟩

theorem captureLineCb_expandBuf (t : Tick) (sh : Shell) (line : List UInt8) (fw : Fw) :
    (captureLineCb t sh line fw).expandBuf = fw.expandBuf := by
  rcases captureLineCb_cases t sh line fw with ⟨-, he⟩ | ⟨-, he⟩ | ⟨-, -, he⟩
  · rw [he]; rfl
  · rw [he]; rfl
  · rw [he]

/-- The end of a line, in a context that differs from the frame's in `last_was_cr` at most. -/
theorem endOfLine_buf {t : Tick} {f : Frame} {sh : Shell} {fw fw₀ : Fw}
    (hbuf : fw₀.expandBuf = fw.expandBuf) (hvars : fw₀.vars = fw.vars)
    (hshell : fw₀.shell = fw.shell) (hline : f.expanding fw =
      if (fw₀.ctx sh).capturing = false ∧ 0 < (fw₀.ctx sh).lineLen.1 then
        (lineTokens (fw₀.ctx sh).terminate.line).toOption else none) :
    BufEffect f fw (endOfLine t sh fw₀) := by
  unfold endOfLine
  dsimp only
  split
  · exact .same ((captureLineCb_expandBuf _ _ _ _).trans hbuf) (List.nil_subset _)
  · next hcap =>
    split
    · next hlen =>
      have hcond : (fw₀.ctx sh).capturing = false ∧ 0 < (fw₀.ctx sh).lineLen.1 :=
        ⟨Bool.eq_false_iff.mpr hcap, hlen⟩
      rw [if_pos hcond] at hline
      rcases dispatchLine_expands sh (fw₀.ctx sh).terminate.line
        (fw₀.setCtx sh (fw₀.ctx sh).terminate) with ⟨-, hfw, hpush⟩ | ⟨toks, htoks, hfw, hpush⟩
      · refine .same ?_ ?_
        · rw [hfw]
          exact hbuf
        · rw [hpush]
          exact List.nil_subset _
      · refine .line (hline.trans htoks) ?_ ?_
        · rw [hfw]
          show (expandArgv fw₀.vars fw₀.shell toks fw₀.expandBuf).1 = _
          rw [hvars, hshell, hbuf]
        · rw [pending_append, hpush]
          show (expandArgv fw₀.vars fw₀.shell toks fw₀.expandBuf).2.2.getD [] ++ [] ⊆ _
          rw [hvars, hshell, hbuf, List.append_nil]
          exact List.Subset.refl _
    · exact .same hbuf (List.nil_subset _)

theorem BufEffect.more {f : Frame} {fw : Fw} {r : Ran} (h : BufEffect f fw r) {g : Frame}
    (hg : g.pending = []) : BufEffect f fw { r with push := r.push ++ [g] } := by
  have happ : pending (r.push ++ [g]) = pending r.push := by
    rw [pending_append, pending, pending, List.flatMap_singleton, hg, List.append_nil]
  cases h with
  | same hbuf hpush => exact .same hbuf (by rw [happ]; exact hpush)
  | line hline hbuf hpush => exact .line hline hbuf (by rw [happ]; exact hpush)
  | split hsplit hbuf hpush => exact .split hsplit hbuf (by rw [happ]; exact hpush)

theorem feedByte_buf (t : Tick) (sh : Shell) (b : UInt8) (rest : List UInt8)
    (packet : Bool) (fw : Fw) :
    BufEffect (.feed sh (b :: rest) packet) fw (feedByte t sh b fw) := by
  rcases feedByte_cases t sh b fw with ⟨-, c, -, he⟩ | ⟨hends, he | he⟩
  · rw [he]
    exact .same rfl (List.nil_subset _)
  · rw [he]
    refine endOfLine_buf rfl rfl rfl ?_
    rw [Frame.expanding]
    simp only [hends, true_and]
  · rw [he]
    refine endOfLine_buf rfl rfl rfl ?_
    rw [Frame.expanding, Fw.setCtx_self]
    simp only [hends, true_and]
    rfl

theorem cliFeed_buf (t : Tick) (sh : Shell) (data : List UInt8) (packet : Bool) (fw : Fw) :
    BufEffect (.feed sh data packet) fw (cliFeed t sh data packet fw) := by
  unfold cliFeed
  cases data with
  | nil =>
    dsimp only
    split <;> exact .same rfl (List.nil_subset _)
  | cons b rest => exact (feedByte_buf t sh b rest packet fw).more rfl

theorem runNext_buf (sh : Shell) (script : PicoBLE.Storage.OpenScript) (off : Nat) (fw : Fw) :
    BufEffect (.runNext sh script off) fw (runNext sh script off fw) := by
  unfold runNext
  split
  · next hoff =>
    dsimp only
    split
    · exact .same rfl (List.nil_subset _)
    · next hskip =>
      refine BufEffect.more ?_ rfl
      have hcond : off < script.bodyLen ∧ runSkips (runLine (script.text fw.flash.image) off) =
          false :=
        ⟨hoff, Bool.eq_false_iff.mpr hskip⟩
      have hline : (Frame.runNext sh script off).expanding fw = (lineTokens
          (Buffer.ofString cliLineMax (runLine (script.text fw.flash.image) off))).toOption :=
            if_pos hcond
      rcases dispatchLine_expands sh
        (Buffer.ofString cliLineMax (runLine (script.text fw.flash.image) off)) fw with
        ⟨-, hfw, hpush⟩ | ⟨toks, htoks, hfw, hpush⟩
      · exact .same (by rw [hfw]) (by rw [hpush]; exact List.nil_subset _)
      · refine .line (hline.trans htoks) (by rw [hfw]) ?_
        rw [hpush]
        exact List.Subset.refl _
  · exact .same rfl (List.nil_subset _)

/-! ## Handlers -/

/-- What a handler dispatches again is part of its own arguments. -/
theorem handleRepeat_pending (sh : Shell) (argv : List Arg) (fw : Fw) :
    (handleRepeat sh argv fw).fw = fw ∧ pending (handleRepeat sh argv fw).push ⊆ argv := by
  rcases handleRepeat_cases sh argv fw with ⟨rc, he⟩ | ⟨name, count, a, rest, n, rfl, -, he⟩
  · rw [he]
    exact ⟨rfl, List.nil_subset _⟩
  · rw [he]
    refine ⟨rfl, fun x hx => ?_⟩
    simp only [Fw.goto, pending, List.flatMap_singleton, Frame.pending] at hx
    split at hx
    · exact List.mem_cons_of_mem _ (List.mem_cons_of_mem _ hx)
    · exact absurd hx (by simp)

theorem handleWhile_pending (sh : Shell) (argv : List Arg) (fw : Fw) :
    (handleWhile sh argv fw).fw = fw ∧ pending (handleWhile sh argv fw).push ⊆ argv := by
  rcases handleWhile_cases sh argv fw with ⟨rc, he⟩ | ⟨i, -, -, -, he⟩
  · rw [he]
    exact ⟨rfl, List.nil_subset _⟩
  · rw [he]
    refine ⟨rfl, fun x hx => ?_⟩
    simp only [Fw.goto, pending, List.flatMap_singleton, Frame.pending] at hx
    split at hx
    · rcases List.mem_append.mp hx with hx | hx
      · exact List.drop_subset _ _ (List.take_subset _ _ hx)
      · exact List.drop_subset _ _ (List.drop_subset _ _ hx)
    · exact absurd hx (by simp)

theorem ifBranches_subset (fw : Fw) (after : List Arg) :
    (ifBranches fw after).1 ⊆ after ∧ (ifBranches fw after).2 ⊆ after := by
  unfold ifBranches
  split
  · exact ⟨List.Subset.refl _, List.nil_subset _⟩
  · exact ⟨List.take_subset _ _, List.drop_subset _ _⟩

theorem handleIf_pending (sh : Shell) (argv : List Arg) (fw : Fw) :
    (handleIf sh argv fw).fw = fw ∧ pending (handleIf sh argv fw).push ⊆ argv := by
  rcases handleIf_cases sh argv fw with ⟨rc, he⟩ | ⟨i, -, -, -, he⟩
  · rw [he]
    exact ⟨rfl, List.nil_subset _⟩
  · rw [he]
    refine ⟨rfl, fun x hx => ?_⟩
    obtain ⟨hthen, helse⟩ := ifBranches_subset fw ((argv.drop 1).drop (i + 1))
    simp only [pending, List.flatMap_cons, List.flatMap_nil, List.append_nil, Frame.pending] at hx
    rcases List.mem_append.mp hx with hx | hx
    · exact List.drop_subset _ _ (List.take_subset _ _ hx)
    · rcases List.mem_append.mp hx with hx | hx
      · exact List.drop_subset _ _ (List.drop_subset _ _ (hthen hx))
      · exact List.drop_subset _ _ (List.drop_subset _ _ (helse hx))

/-- `set` writes to `g_expand_buf` only to cut its argument. -/
theorem handleSet_buf (argv : List Arg) (fw : Fw) :
    (handleSet argv fw).push = [] ∧
      (handleSet argv fw).fw.expandBuf
        = ((setSplit fw argv).map fun i => fw.expandBuf.set i 0).getD fw.expandBuf := by
  obtain ⟨vars, rc, he⟩ := handleSet_eq argv fw
  rw [he]
  exact ⟨rfl, rfl⟩

theorem handleUnset_buf (argv : List Arg) (fw : Fw) :
    (handleUnset argv fw).push = [] ∧ (handleUnset argv fw).fw.expandBuf = fw.expandBuf := by
  obtain ⟨vars, rc, he⟩ := handleUnset_eq argv fw
  rw [he]
  exact ⟨rfl, rfl⟩

theorem handleRun_buf (sh : Shell) (argv : List Arg) (fw : Fw) :
    pending (handleRun sh argv fw).push = [] ∧
    (handleRun sh argv fw).fw.expandBuf = fw.expandBuf := by
  rcases handleRun_cases sh argv fw with ⟨rc, he⟩ | ⟨-, name, script, -, he | ⟨shell, -, he⟩⟩
  · rw [he]; exact ⟨rfl, rfl⟩
  · rw [he]; exact ⟨rfl, rfl⟩
  · rw [he]; exact ⟨rfl, rfl⟩

theorem handleScript_buf (t : Tick) (sh : Shell) (argv : List Arg) (fw : Fw) :
    pending (handleScript t sh argv fw).push = [] ∧
      (handleScript t sh argv fw).fw.expandBuf = fw.expandBuf := by
  rcases handleScript_cases t sh argv fw with ⟨rc, he⟩ | ⟨name, he⟩ | he
    | ⟨flash, rc, he⟩ | ⟨name, he⟩
  all_goals
    rw [he]
    exact ⟨rfl, rfl⟩

theorem cliDispatchArgv_buf (t : Tick) (sh : Shell) (argv : List Arg) (fw : Fw) :
    BufEffect (.dispatch sh argv) fw (cliDispatchArgv t sh argv fw) := by
  unfold cliDispatchArgv
  cases argv with
  | nil => exact .same rfl (List.nil_subset _)
  | cons a args =>
    dsimp only
    cases hfind : cliCommandFind (fw.str a) with
    | none => exact .same rfl (List.nil_subset _)
    | some h =>
      have hcall := @calling_dispatch _ sh _ args _ hfind
      have hsub : ∀ {r : Ran}, r.fw = fw ∧ pending r.push ⊆ a :: args →
          BufEffect (.dispatch sh (a :: args)) fw r :=
        fun hr => .same (by rw [hr.1]) hr.2
      have hnil : ∀ {r : Ran}, pending r.push = [] ∧ r.fw.expandBuf = fw.expandBuf →
          BufEffect (.dispatch sh (a :: args)) fw r :=
        fun hr => .same hr.2 (by rw [hr.1]; exact List.nil_subset _)
      refine BufEffect.more ?_ rfl
      cases h with
      -- these three keep part of their arguments for later
      | cmdRepeat => exact hsub (handleRepeat_pending sh _ fw)
      | cmdWhile => exact hsub (handleWhile_pending sh _ fw)
      | cmdIf => exact hsub (handleIf_pending sh _ fw)
      | cmdRun => exact hnil (handleRun_buf sh _ fw)
      | cmdScript => exact hnil (handleScript_buf t sh _ fw)
      | cmdSet =>
        obtain ⟨hpush, hbuf⟩ := handleSet_buf (a :: args) fw
        cases hcut : setSplit fw (a :: args) with
        | none => exact hnil ⟨by rw [callHandler, hpush]; rfl, by rw [callHandler, hbuf, hcut]; rfl⟩
        | some i =>
          -- `NAME=VALUE`: the NUL goes over the `=`
          refine .split (i := i) ?_ (by rw [callHandler, hbuf, hcut]; rfl)
            (by rw [callHandler, hpush]; rfl)
          rw [Frame.splitting, hcall]
          exact hcut
      | cmdUnset =>
        obtain ⟨hpush, hbuf⟩ := handleUnset_buf (a :: args) fw
        exact hnil ⟨by rw [callHandler, hpush]; rfl, hbuf⟩
      | leaf => exact hnil ⟨rfl, rfl⟩

/-! ## The loops -/

theorem repeatNext_pending (sh : Shell) (sub : List Arg) (i n : Nat) (fw : Fw) :
    pending (repeatNext sh sub i n fw).push ⊆ (Frame.repeatNext sh sub i n).pending := by
  unfold repeatNext
  split
  · next hi =>
    intro x hx
    simp only [pending, List.flatMap_cons, List.flatMap_nil, List.append_nil, Frame.pending] at hx ⊢
    rw [if_pos hi]
    rcases List.mem_append.mp hx with hx | hx
    · exact hx
    -- the turn after this one, if there is one
    · split at hx
      · exact hx
      · exact absurd hx (by simp)
  · exact List.nil_subset _

theorem whileNext_pending (sh : Shell) (cond body : List Arg) (i : Nat) (fw : Fw) :
    pending (whileNext sh cond body i fw).push ⊆ (Frame.whileNext sh cond body i).pending := by
  unfold whileNext
  split
  · next hi =>
    intro x hx
    simp only [pending, List.flatMap_cons, List.flatMap_nil, List.append_nil, Frame.pending] at hx ⊢
    rw [if_pos hi]
    rcases List.mem_append.mp hx with hx | hx
    · exact List.mem_append_left _ hx
    · rcases List.mem_append.mp hx with hx | hx
      · exact List.mem_append_right _ hx
      · split at hx
        · exact List.mem_append_left _ hx
        · exact absurd hx (by simp)
  · exact List.nil_subset _

theorem whileCond_pending (sh : Shell) (cond body : List Arg) (i : Nat) (rc : Int) (fw : Fw) :
    pending (whileCond sh cond body i rc fw).push ⊆ (Frame.whileCond sh cond body i).pending := by
  unfold whileCond
  split
  · exact List.nil_subset _
  · intro x hx
    simp only [pending, List.flatMap_cons, List.flatMap_nil, List.append_nil, Frame.pending] at hx ⊢
    rcases List.mem_append.mp hx with hx | hx
    · exact List.mem_append_left _ hx
    · split at hx
      · next hi =>
        rw [if_pos hi]
        rcases List.mem_append.mp hx with hx | hx
        · exact List.mem_append_right _ hx
        · exact List.mem_append_left _ hx
      · exact absurd hx (by simp)

/-- **What one tick does to the arguments.** -/
theorem runFrame_buf {t : Tick} {f : Frame} {fw : Fw} {rc : Int} {r : Ran}
    (h : runFrame t f fw rc = some r) : BufEffect f fw r := by
  unfold runFrame at h
  cases f with
  | feed sh data packet => rw [← Option.some.inj h]; exact cliFeed_buf t sh data packet fw
  | lineDone sh => rw [← Option.some.inj h]; exact .same rfl (List.nil_subset _)
  | dispatch sh argv => rw [← Option.some.inj h]; exact cliDispatchArgv_buf t sh argv fw
  | handled => rw [← Option.some.inj h]; exact .same rfl (List.nil_subset _)
  | repeatNext sh sub i n =>
    rw [← Option.some.inj h]
    exact .same (by rw [repeatNext]; split <;> rfl) (repeatNext_pending sh sub i n fw)
  | repeatCheck sh sub i n =>
    rw [← Option.some.inj h, repeatCheck]
    split
    · exact .same rfl (List.nil_subset _)
    · exact .same rfl (by rw [Fw.goto, pending, List.flatMap_singleton]; exact List.Subset.refl _)
  | whileNext sh cond body i =>
    rw [← Option.some.inj h]
    exact .same (by rw [whileNext]; split <;> rfl) (whileNext_pending sh cond body i fw)
  | whileCond sh cond body i =>
    rw [← Option.some.inj h]
    exact .same (by rw [whileCond]; split <;> rfl) (whileCond_pending sh cond body i rc fw)
  | whileBody sh cond body i =>
    rw [← Option.some.inj h, whileBody]
    split
    · exact .same rfl (List.nil_subset _)
    · exact .same rfl (by rw [Fw.goto, pending, List.flatMap_singleton]; exact List.Subset.refl _)
  | ifCond sh thenArgv elseArgv =>
    rw [← Option.some.inj h, ifCond]
    split
    · exact .same rfl
        (by rw [Fw.goto, pending, List.flatMap_singleton]; exact List.subset_append_left _ _)
    · split
      · exact .same rfl
          (by rw [Fw.goto, pending, List.flatMap_singleton]; exact List.subset_append_right _ _)
      · exact .same rfl (List.nil_subset _)
  | runNext sh script off => rw [← Option.some.inj h]; exact runNext_buf sh script off fw
  | fetch name => exact absurd h (by simp)
  | leaf sh argv => exact absurd h (by simp)

/-! ## What a step does -/

/-- The frames that a step leaves on the stack. -/
def Machine.waiting (m : Machine) : Event → List Frame
  | .tick _ => m.stack.tail
  | _ => m.stack

theorem expandArgv_above {fw : Fw} {toks : List (List UInt8)} {p : Nat}
    (h : fw.expansionEnd toks ≤ p) :
    (expandArgv fw.vars fw.shell toks fw.expandBuf).1.str p = fw.expandBuf.str p :=
  (expandFrom_writes fw.vars fw.shell toks fw.expandBuf 0).str_above h

/-- The new arguments of a line are what its expansion put there. -/
theorem expandArgv_text {fw : Fw} {toks : List (List UInt8)} {a : Arg}
    (h : a ∈ (expandArgv fw.vars fw.shell toks fw.expandBuf).2.2.getD []) :
    (expandArgv fw.vars fw.shell toks fw.expandBuf).1.str a.ptr = a.text := by
  cases hargs : (expandArgv fw.vars fw.shell toks fw.expandBuf).2.2 with
  | none => rw [hargs] at h; exact absurd h (by simp)
  | some args =>
    rw [hargs] at h
    exact expandFrom_text fw.vars fw.shell hargs a h

/-- **What a step does to `g_expand_buf`.** The arguments that wait keep their strings unless
the step writes to them, and every other argument to be dispatched is one whose string
stays, or is new. -/
inductive BufStep (m : Machine) (e : Event) (m' : Machine) : Prop where
  | same (hbuf : m'.fw.expandBuf = m.fw.expandBuf) (hargs : pending m'.stack ⊆ pending m.stack)
  | line {toks : List (List UInt8)} (hline : m.expanding e = some toks)
      (hbuf : m'.fw.expandBuf = (expandArgv m.fw.vars m.fw.shell toks m.fw.expandBuf).1)
      (hargs : ∀ a ∈ pending m'.stack, a ∈ pending (m.waiting e) ∨
        a ∈ (expandArgv m.fw.vars m.fw.shell toks m.fw.expandBuf).2.2.getD [])
  | split {i : Nat} (hsplit : m.splitting e = some i)
      (hbuf : m'.fw.expandBuf = m.fw.expandBuf.set i 0)
      (hargs : pending m'.stack ⊆ pending (m.waiting e))

theorem bufStep_of_step {m m' : Machine} {e : Event} (hs : m.step e = some m') :
    BufStep m e m' := by
  have hleave : ∀ {f : Frame} {below : List Frame}, m.stack = f :: below →
      pending below ⊆ pending m.stack := by
    intro f below hstack
    rw [hstack]
    exact List.subset_append_right _ _
  cases step_cases hs with
  | @tick t f below r hstack hrun =>
    have hwait : m.waiting (.tick t) = below := by rw [Machine.waiting, hstack]; rfl
    have hargs : ∀ a ∈ pending (r.resume below).stack, a ∈ pending r.push ∨ a ∈ pending below := by
      intro a ha
      rw [Ran.resume, pending_append] at ha
      exact List.mem_append.mp ha
    cases runFrame_buf hrun with
    | same hbuf hpush =>
      -- what the frame pushes it has been waiting for itself
      refine .same hbuf fun a ha => ?_
      rw [hstack]
      rcases hargs a ha with ha | ha
      · exact List.mem_append_left _ (hpush ha)
      · exact List.mem_append_right _ ha
    | line hline hbuf hpush =>
      refine .line (by rw [Machine.expanding, hstack]; exact hline) hbuf fun a ha => ?_
      rw [hwait]
      rcases hargs a ha with ha | ha
      · exact .inr (hpush ha)
      · exact .inl ha
    | split hsplit hbuf hpush =>
      refine .split (by rw [Machine.splitting, hstack]; exact hsplit) hbuf fun a ha => ?_
      rw [hwait]
      rcases hargs a ha with ha | ha
      · rw [hpush] at ha
        exact absurd ha (by simp)
      · exact ha
  | @fire target _ =>
    rcases dispatchLine_expands .bg (Buffer.ofString (bindTargetMax + 1) target) m.fw with
      ⟨-, hfw, hpush⟩ | ⟨toks, htoks, hfw, hpush⟩
    · refine .same (by rw [Ran.resume, hfw]) ?_
      rw [Ran.resume, hpush]
      exact List.Subset.refl _
    · refine .line htoks (by rw [Ran.resume, hfw]) fun a ha => ?_
      rw [Ran.resume, pending_append, hpush] at ha
      exact (List.mem_append.mp ha).symm
  | @chunk data _ _ _ _ =>
    obtain ⟨buf, fetches, hfw⟩ := fetchChunk_fw data m.fw
    exact .same (by rw [hfw]) (List.Subset.refl _)
  | @chunkBelow data _ _ _ _ _ _ =>
    obtain ⟨buf, fetches, hfw⟩ := fetchChunk_fw data m.fw
    exact .same (by rw [hfw]) (List.Subset.refl _)
  | @httpDone t ok name below hstack _ =>
    obtain ⟨flash, rc, hdone⟩ := fetchDone_fw t ok name m.fw
    rw [hdone]
    exact .same rfl (hleave hstack)
  | leafDone hstack => exact .same rfl (hleave hstack)
  | linkUp => exact .same rfl (List.Subset.refl _)
  | subscribe _ => exact .same rfl (List.Subset.refl _)
  | linkDown => exact .same rfl (List.Subset.refl _)
  | rx _ => exact .same rfl (List.Subset.refl _)
  | usb _ => exact .same rfl (List.Subset.refl _)
  | usbFirst _ => exact .same rfl (List.Subset.refl _)
  | httpGet _ => exact .same rfl (List.Subset.refl _)
  | elsewhere _ => exact .same rfl (List.Subset.refl _)

/-- **An argument that a step does not write to keeps its string.** -/
theorem step_str {m m' : Machine} {e : Event} (hs : m.step e = some m') {a : Arg}
    (h : ArgSafe m e a) :
    m'.fw.str a = m.fw.str a := by
  obtain ⟨hline, hcut⟩ := h
  rw [Fw.str, Fw.str]
  cases bufStep_of_step hs with
  | same hbuf _ => rw [hbuf]
  | line hexp hbuf _ => rw [hbuf, expandArgv_above (hline _ hexp)]
  | split hsplit hbuf _ =>
    rw [hbuf]
    -- the cut is in front of the argument or behind its NUL
    rcases hcut _ hsplit with hlt | hgt
    · exact Buffer.str_set_below 0 hlt
    · exact Buffer.str_set_above 0 hgt

/-- Nor does a run that writes to it nowhere change it. -/
theorem runs_str {m m' : Machine} {events : List Event} {a : Arg}
    (h : machine.Runs (fun m e => ArgSafe m e a) m events m') : m'.fw.str a = m.fw.str a := by
  induction h with
  | nil => rfl
  | cons hsafe hs _ ih => exact ih.trans (step_str hs hsafe)

end PicoBLE.Cli
