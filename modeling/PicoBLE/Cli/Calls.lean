import PicoBLE.Cli.RunScript
import PicoBLE.Lib.CallStack

/-!
# The frames of the machine as calls

What is in progress is a C stack, so a call does what it does whatever called
it. Here the machine becomes a `CallStack`, and each frame says in terms of the
calls that it makes what comes of it: `repeat` and `while` are bounded loops,
`if` is a branch, `run` is the lines of its script one after another. The world
outside can be restricted to some events, and with all of them allowed this
holds with every interrupt that there can be.
-/

namespace PicoBLE.Cli

open CallStack
open PicoBLE.Storage (OpenScript)

/-- More frames below. -/
def Machine.over (m : Machine) (below : List Frame) : Machine :=
  { m with stack := m.stack ++ below }

/-- A machine with one frame. -/
def alone (f : Frame) (s : Fw × Int) : Machine := { fw := s.1, stack := [f], rc := s.2 }

theorem over_alone {m : Machine} {f : Frame} {below : List Frame} (h : m.stack = f :: below) :
    (alone f (m.fw, m.rc)).over below = m := by
  rw [alone, Machine.over, List.singleton_append, ← h]

/-- Frames below a frame make no difference to what the world does to it. -/
theorem interrupt_over (f : Frame) (s : Fw × Int) (below : List Frame) (e : Event) :
    ((alone f s).over below).interrupt e = ((alone f s).interrupt e).map (·.over below) := by
  cases e with
  | subscribe => cases hup : s.1.linkUp <;> simp [Machine.interrupt, alone, Machine.over, hup]
  | rx data => cases hup : s.1.linkUp <;> simp [Machine.interrupt, alone, Machine.over, hup]
  | fire target =>
    unfold Machine.interrupt
    dsimp only
    split
    · rw [Option.map_some]
      refine congrArg some ?_
      unfold Ran.resume Machine.over
      rw [List.append_assoc]
    · rfl
  | elsewhere flash =>
    by_cases hsame : SameScripts s.1.flash flash
    · simp [Machine.interrupt, alone, Machine.over, hsame]
    · simp [Machine.interrupt, alone, Machine.over, hsame]
  | _ => rfl

theorem deliver_over (f : Frame) (s : Fw × Int) (below : List Frame) (data : List UInt8) :
    ((alone f s).over below).deliver data = ((alone f s).deliver data).map (·.over below) := by
  show (if s.1.fetchState.overflow then none else _) =
    Option.map _ (if s.1.fetchState.overflow then none else _)
  by_cases hfull : s.1.fetchState.overflow
  · rw [if_pos hfull, if_pos hfull]
    rfl
  · rw [if_neg hfull, if_neg hfull]
    rfl

/-- Nor to how it is woken. -/
theorem wake_over (f : Frame) (s : Fw × Int) (below : List Frame) (e : Event) :
    ((alone f s).over below).wake e = ((alone f s).wake e).map (·.over below) := by
  cases e with
  | chunk data =>
    cases f with
    | fetch name => exact deliver_over _ s below data
    | _ => rfl
  | chunkBelow data =>
    cases f with
    | leaf sh argv =>
      show (if s.1.fetches = [] then none
        else _) = Option.map _ (if s.1.fetches = [] then none else _)
      by_cases hnil : s.1.fetches = []
      · rw [if_pos hnil, if_pos hnil]
        rfl
      · rw [if_neg hnil, if_neg hnil]
        exact deliver_over _ s below data
    | _ => rfl
  | httpDone t ok =>
    cases f with
    | fetch name =>
      show (if ok ∧ s.1.fetchState.overflow then none else _) =
        Option.map _ (if ok ∧ s.1.fetchState.overflow then none else _)
      by_cases hfull : ok ∧ s.1.fetchState.overflow
      · rw [if_pos hfull, if_pos hfull]
        rfl
      · rw [if_neg hfull, if_neg hfull, Option.map_some]
        refine congrArg some ?_
        unfold Ran.resume Machine.over
        rw [List.append_nil]
        rfl
    | _ => rfl
  | httpGet => cases f <;> rfl
  | leafDone rc => cases f <;> rfl
  | _ => rfl

/-- **A step of the innermost frame does not depend on the others**, and leaves them. -/
theorem step_over (f : Frame) (s : Fw × Int) (below : List Frame) (e : Event) :
    ((alone f s).over below).step e = ((alone f s).step e).map (·.over below) := by
  have houtside : ∀ e : Event, (∀ t, e ≠ .tick t) →
      ((alone f s).over below).step e = ((alone f s).step e).map (·.over below) := by
    intro e he
    have hpolls : ((alone f s).over below).polls = (alone f s).polls := rfl
    unfold Machine.step
    cases e with
    | tick t => exact absurd rfl (he t)
    | _ =>
      dsimp only
      rw [hpolls, interrupt_over, wake_over]
      split
      · cases (alone f s).interrupt _ <;> rfl
      · rfl
  cases e with
  | tick t =>
    show (runFrame t f s.1 s.2).map (·.resume below) =
      ((runFrame t f s.1 s.2).map (·.resume [])).map (·.over below)
    rw [Option.map_map]
    refine congrFun (congrArg _ (funext fun r => ?_)) _
    show r.resume below = (r.resume []).over below
    unfold Ran.resume Machine.over
    rw [List.append_nil]
  | _ => exact houtside _ (by simp)

/-- The turns of a frame, while the world keeps to `ok`. -/
def shellCalls (ok : Event → Prop) : CallStack (Fw × Int) Frame where
  turn f s s' push :=
    ∃ e, ok e ∧ (alone f s).step e = some { fw := s'.1, stack := push, rc := s'.2 }

/-- **The machine is driven by these turns.** -/
theorem shellCalls_drives (ok : Event → Prop) :
    Drives machine ok (shellCalls ok) (fun m => (m.fw, m.rc)) Machine.stack where
  turns {m m' e f below} hstack he hs := by
    change m.step e = some m' at hs
    rw [← over_alone hstack, step_over] at hs
    obtain ⟨m₁, hs₁, rfl⟩ := Option.map_eq_some_iff.mp hs
    exact ⟨m₁.stack, rfl, e, he, hs₁⟩
  steps {m f push below s'} hstack ht := by
    obtain ⟨e, he, hs⟩ := ht
    refine ⟨e, Machine.over { fw := s'.1, stack := push, rc := s'.2 } below, he, ?_, rfl, rfl⟩
    show m.step e = _
    rw [← over_alone hstack, step_over, hs]
    rfl

section Frames

variable {ok : Event → Prop}

/-- A frame that does not wait runs on. -/
theorem turn_runs {f : Frame} (hw : f.waits = false) {s s' : Fw × Int} {push : List Frame} :
    (shellCalls ok).turn f s s' push ↔
      ∃ t r, ok (.tick t) ∧ runFrame t f s.1 s.2 = some r ∧ s' = (r.fw, r.rc) ∧ push = r.push := by
  constructor
  · rintro ⟨e, he, hs⟩
    obtain ⟨t, rfl⟩ : ∃ t, e = .tick t := by
      cases e with
      | tick t => exact ⟨t, rfl⟩
      | _ =>
        unfold Machine.step at hs
        dsimp only at hs
        rw [if_neg (by
          rw [Machine.polls, alone, List.head?_cons]; exact fun h =>
            Bool.false_ne_true (hw ▸ h))] at hs
        exact absurd hs (by simp)
    obtain ⟨r, hr, heq⟩ :=
      Option.map_eq_some_iff.mp (show (runFrame t f s.1 s.2).map (·.resume []) = _ from hs)
    obtain ⟨hfw, hpush, hrc⟩ := Machine.mk.inj heq
    exact ⟨t, r, he, hr, Prod.ext hfw.symm hrc.symm, hpush.symm.trans (List.append_nil _)⟩
  · rintro ⟨t, r, he, hr, rfl, rfl⟩
    refine ⟨.tick t, he, ?_⟩
    show (runFrame t f s.1 s.2).map (·.resume []) = _
    rw [hr, Option.map_some, Ran.resume, List.append_nil]

/-- One that runs in one way leaves what it leaves. -/
theorem returns_runs (htick : ∀ t, ok (.tick t)) {f : Frame} (hw : f.waits = false)
    {s s' : Fw × Int} {r : Ran} (hr : ∀ t, runFrame t f s.1 s.2 = some r) :
    (shellCalls ok).Returns [f] s s' ↔ (shellCalls ok).Returns r.push (r.fw, r.rc) s' := by
  rw [returns_frame]
  constructor
  · rintro ⟨s₁, push, hturn, hrest⟩
    obtain ⟨t, r', -, hr', rfl, rfl⟩ := (turn_runs hw).mp hturn
    obtain rfl := Option.some.inj ((hr t).symm.trans hr')
    exact hrest
  · exact fun h => ⟨_, _, (turn_runs hw).mpr ⟨calm, r, htick calm, hr calm, rfl, rfl⟩, h⟩

/-- What has been returned last makes no difference to a frame that does not look at it. -/
theorem returns_rc {f : Frame} (hw : f.waits = false) {fw : Fw} {rc₀ rc₁ : Int} {s' : Fw × Int}
    (hr : ∀ t, runFrame t f fw rc₀ = runFrame t f fw rc₁) :
    (shellCalls ok).Returns [f] (fw, rc₀) s' ↔ (shellCalls ok).Returns [f] (fw, rc₁) s' := by
  simp only [returns_frame, turn_runs hw, hr]

theorem returns_ret {fw fw' : Fw} {rc rc' : Int} :
    (shellCalls ok).Returns (fw.ret rc).push ((fw.ret rc).fw, (fw.ret rc).rc) (fw', rc') ↔
    rc' = rc ∧ fw' = fw := by
  rw [Fw.ret, returns_nil, Prod.mk.injEq, and_comm]

end Frames

/-! ## `cli_dispatch_argv` -/

/-- A call of it, with what it returns and leaves behind. -/
def Calls (ok : Event → Prop) (sh : Shell) (argv : List Arg) (fw : Fw) (rc : Int) (fw' : Fw) :
    Prop :=
  (shellCalls ok).Returns [.dispatch sh argv] (fw, 0) (fw', rc)

section Commands

variable {ok : Event → Prop} {sh : Shell} {fw fw' : Fw} {rc : Int}

theorem calls_rc {argv : List Arg} {rc₀ : Int} :
    (shellCalls ok).Returns [.dispatch sh argv] (fw, rc₀) (fw', rc) ↔ Calls ok sh argv fw rc fw' :=
  returns_rc rfl fun _ => rfl

/-- A call, and the frames behind it. -/
theorem returns_call {argv : List Arg} {fs : List Frame} {rc₀ : Int} {s' : Fw × Int} :
    (shellCalls ok).Returns (.dispatch sh argv :: fs) (fw, rc₀) s' ↔
      ∃ rc₁ fw₁, Calls ok sh argv fw rc₁ fw₁ ∧ (shellCalls ok).Returns fs (fw₁, rc₁) s' := by
  rw [returns_cons]
  constructor
  · rintro ⟨⟨fw₁, rc₁⟩, hcall, hrest⟩
    exact ⟨rc₁, fw₁, calls_rc.mp hcall, hrest⟩
  · rintro ⟨rc₁, fw₁, hcall, hrest⟩
    exact ⟨(fw₁, rc₁), calls_rc.mpr hcall, hrest⟩

theorem calls_nil (htick : ∀ t, ok (.tick t)) : Calls ok sh [] fw rc fw' ↔ rc = cliOk ∧
    fw' = fw := by
  rw [Calls, @returns_runs ok htick _ rfl _ _ (fw.ret cliOk) fun _ => rfl, returns_ret]

theorem calls_unknown (htick : ∀ t, ok (.tick t)) {a : Arg} {args : List Arg}
    (hfind : cliCommandFind (fw.str a) = none) :
    Calls ok sh (a :: args) fw rc fw' ↔ rc = cliErrArg ∧ fw' = fw.setStatus cliErrArg := by
  have hrun : ∀ t, runFrame t (.dispatch sh (a :: args)) fw 0 =
      some ((fw.setStatus cliErrArg).ret cliErrArg) := by
    intro t
    show some (cliDispatchArgv t sh (a :: args) fw) = _
    rw [cliDispatchArgv, hfind]
  rw [Calls, returns_runs htick rfl hrun, returns_ret]

/-- **A command is what its handler makes of it**, and sets the status. -/
theorem calls_handler (htick : ∀ t, ok (.tick t)) {a : Arg} {args : List Arg}
    {h : Handler} {r : Ran} (hfind : cliCommandFind (fw.str a) = some h)
    (hr : ∀ t, callHandler t sh (a :: args) fw h = r) :
    Calls ok sh (a :: args) fw rc fw' ↔
      ∃ fw₁, (shellCalls ok).Returns r.push (r.fw, r.rc) (fw₁, rc) ∧ fw' = fw₁.setStatus rc := by
  have hrun : ∀ t, runFrame t (.dispatch sh (a :: args)) fw 0 = some r.called := by
    intro t
    show some (cliDispatchArgv t sh (a :: args) fw) = _
    rw [cliDispatchArgv, hfind]
    dsimp only
    rw [hr t]
  rw [Calls, returns_runs htick rfl hrun]
  show (shellCalls ok).Returns (r.push ++ [.handled]) _ _ ↔ _
  rw [returns_append]
  have hhandled : ∀ s₁ : Fw × Int, (shellCalls ok).Returns [.handled] s₁ (fw', rc) ↔
      rc = s₁.2 ∧ fw' = s₁.1.setStatus s₁.2 := by
    intro s₁
    rw [returns_runs htick rfl (r := (s₁.1.setStatus s₁.2).ret s₁.2) fun _ => rfl, returns_ret]
  simp only [hhandled]
  constructor
  · rintro ⟨⟨fw₁, rc₁⟩, hret, rfl, rfl⟩
    exact ⟨fw₁, hret, rfl⟩
  · rintro ⟨fw₁, hret, rfl⟩
    exact ⟨(fw₁, rc), hret, rfl, rfl⟩

/-! ## `repeat`, `while`, `if` -/

/-- What stops a loop. -/
def stops (rc : Int) : Option Int := if rc = cliErrHardware then some rc else none

/-- A turn of `repeat`. -/
def repeatTurn {σ : Type} (sub : σ → Int → σ → Prop) (s : σ) (o : Option Int) (s' : σ) : Prop :=
  ∃ rc, sub s rc s' ∧ o = stops rc

/-- A turn of `while`: the body, if the condition succeeds. -/
def whileTurn {σ : Type} (cond body : σ → Int → σ → Prop) (s : σ) (o : Option Int) (s' : σ) :
    Prop :=
  ∃ rc s₁, cond s rc s₁ ∧
    if rc = cliOk then ∃ rc₁, body s₁ rc₁ s' ∧ o = stops rc₁ else o = some cliOk ∧ s' = s₁

/-- `if`: a condition, and then one of two. -/
def Branches {σ : Type} (cond thenDo elseDo : σ → Int → σ → Prop) (s : σ) (rc : Int) (s' : σ) :
    Prop :=
  ∃ rc₁ s₁, cond s rc₁ s₁ ∧ if rc₁ = cliOk then thenDo s₁ rc s' else elseDo s₁ rc s'

theorem stops_hardware : stops cliErrHardware = some cliErrHardware := if_pos rfl

theorem stops_of_ne (h : rc ≠ cliErrHardware) : stops rc = none := if_neg h

/-- Behind a call in a loop: it ends or goes on. -/
theorem returns_check (htick : ∀ t, ok (.tick t)) {f next : Frame}
    (hw : f.waits = false) {rc₁ : Int} (hf : ∀ t, runFrame t f fw rc₁ =
      some (if rc₁ = cliErrHardware then fw.ret rc₁ else fw.goto next rc₁))
    (hnext : ∀ rc₀ s', (shellCalls ok).Returns [next] (fw, rc₀) s' ↔
      (shellCalls ok).Returns [next] (fw, 0) s') :
    (shellCalls ok).Returns [f] (fw, rc₁) (fw', rc) ↔
      stops rc₁ = some rc ∧ fw' = fw ∨ stops rc₁ = none ∧
      (shellCalls ok).Returns [next] (fw, 0) (fw', rc) := by
  rw [returns_runs htick hw hf]
  by_cases hrc : rc₁ = cliErrHardware
  · rw [if_pos hrc, returns_ret, hrc, stops_hardware]
    simp [eq_comm]
  · rw [if_neg hrc, stops_of_ne hrc]
    show (shellCalls ok).Returns [next] (fw, rc₁) (fw', rc) ↔ _
    rw [hnext]
    simp

/-- **`repeat` is a loop.** -/
theorem returns_repeat (htick : ∀ t, ok (.tick t)) {sub : List Arg} {i n : Nat} {rc₀ : Int} :
    (shellCalls ok).Returns [.repeatNext sh sub i n] (fw, rc₀) (fw', rc) ↔
      Loop (repeatTurn (Calls ok sh sub)) cliOk (n - i) fw rc fw' := by
  rw [@returns_rc ok _ rfl fw rc₀ 0 _ fun _ => rfl]
  refine loop_of_unroll (R := fun i fw rc fw' => (shellCalls ok).Returns [.repeatNext sh sub i n]
    (fw, 0) (fw', rc))
    (fun i fw rc fw' hi => ?_) fun i fw rc fw' hi => ?_
  · have hrun : ∀ t, runFrame t (.repeatNext sh sub i n) fw 0 = some (fw.ret cliOk) := fun t =>
      congrArg some (if_neg (Nat.not_lt.mpr hi))
    rw [returns_runs htick rfl hrun, returns_ret]
  · have hrun : ∀ t, runFrame t (.repeatNext sh sub i n) fw 0 =
        some { fw := fw, push := [.dispatch sh sub, .repeatCheck sh sub i n], rc := cliOk } :=
            fun t => congrArg some (if_pos hi)
    have hcheck : ∀ rc₁ fw₁,
        (shellCalls ok).Returns [.repeatCheck sh sub i n] (fw₁, rc₁) (fw', rc) ↔ _ := fun rc₁ fw₁ =>
      returns_check htick rfl (fun t => rfl) fun rc₀ s' => returns_rc rfl fun _ => rfl
    rw [returns_runs htick rfl hrun, returns_call]
    simp only [hcheck]
    constructor
    · rintro ⟨rc₁, fw₁, hcall, ⟨hstop, rfl⟩ | ⟨hgo, hrest⟩⟩
      · exact .inl ⟨rc₁, hcall, hstop.symm⟩
      · exact .inr ⟨fw₁, ⟨rc₁, hcall, hgo.symm⟩, hrest⟩
    · rintro (⟨rc₁, hcall, hstop⟩ | ⟨fw₁, ⟨rc₁, hcall, hgo⟩, hrest⟩)
      · exact ⟨rc₁, fw', hcall, .inl ⟨hstop.symm, rfl⟩⟩
      · exact ⟨rc₁, fw₁, hcall, .inr ⟨hgo.symm, hrest⟩⟩

/-- **So is `while`.** -/
theorem returns_while (htick : ∀ t, ok (.tick t)) {cond body : List Arg} {i : Nat} {rc₀ : Int} :
    (shellCalls ok).Returns [.whileNext sh cond body i] (fw, rc₀) (fw', rc) ↔
      Loop (whileTurn (Calls ok sh cond) (Calls ok sh body)) cliErrHardware
        (whileMaxIter - i) fw rc fw' := by
  rw [@returns_rc ok _ rfl fw rc₀ 0 _ fun _ => rfl]
  refine loop_of_unroll (R := fun i fw rc fw' => (shellCalls ok).Returns [.whileNext sh cond body i]
    (fw, 0) (fw', rc))
    (fun i fw rc fw' hi => ?_) fun i fw rc fw' hi => ?_
  · have hrun : ∀ t, runFrame t (.whileNext sh cond body i) fw 0 = some (fw.ret cliErrHardware) :=
      fun t => congrArg some (if_neg (Nat.not_lt.mpr hi))
    rw [returns_runs htick rfl hrun, returns_ret]
  · have hrun : ∀ t, runFrame t (.whileNext sh cond body i) fw 0 =
        some { fw := fw, push := [.dispatch sh cond, .whileCond sh cond body i], rc := cliOk } :=
            fun t => congrArg some (if_pos hi)
    have hbody : ∀ rc₁ fw₁,
        (shellCalls ok).Returns [.whileBody sh cond body i] (fw₁, rc₁) (fw', rc) ↔ _ :=
            fun rc₁ fw₁ =>
      returns_check htick rfl (fun t => rfl) fun rc₀ s' => returns_rc rfl fun _ => rfl
    have hcond : ∀ rc₁ fw₁, (shellCalls ok).Returns [.whileCond sh cond body i] (fw₁,
        rc₁) (fw', rc) ↔
        if rc₁ = cliOk then ∃ rc₂ fw₂, Calls ok sh body fw₁ rc₂ fw₂ ∧
          (shellCalls ok).Returns [.whileBody sh cond body i] (fw₂, rc₂) (fw', rc)
        else rc = cliOk ∧ fw' = fw₁ := by
      intro rc₁ fw₁
      by_cases hrc : rc₁ = cliOk
      · have hrun : ∀ t, runFrame t (.whileCond sh cond body i) fw₁ rc₁ =
            some { fw := fw₁, push := [.dispatch sh body, .whileBody sh cond body i], rc := rc₁ } :=
                fun t => congrArg some (if_neg (not_not.mpr hrc))
        rw [if_pos hrc, returns_runs htick rfl hrun, returns_call]
      · have hrun : ∀ t, runFrame t (.whileCond sh cond body i) fw₁ rc₁ = some (fw₁.ret cliOk) :=
          fun t => congrArg some (if_pos hrc)
        rw [if_neg hrc, returns_runs htick rfl hrun, returns_ret]
    rw [returns_runs htick rfl hrun, returns_call]
    simp only [hcond]
    constructor
    · rintro ⟨rc₁, fw₁, hcall, hrest⟩
      by_cases hrc : rc₁ = cliOk
      · rw [if_pos hrc] at hrest
        obtain ⟨rc₂, fw₂, hcall₂, hrest⟩ := hrest
        rcases (hbody rc₂ fw₂).mp hrest with ⟨hstop, rfl⟩ | ⟨hgo, hrest⟩
        · exact .inl ⟨rc₁, fw₁, hcall, (if_pos hrc).mpr ⟨rc₂, hcall₂, hstop.symm⟩⟩
        · exact .inr ⟨fw₂, ⟨rc₁, fw₁, hcall, (if_pos hrc).mpr ⟨rc₂, hcall₂, hgo.symm⟩⟩, hrest⟩
      · rw [if_neg hrc] at hrest
        obtain ⟨rfl, rfl⟩ := hrest
        exact .inl ⟨rc₁, fw', hcall, (if_neg hrc).mpr ⟨rfl, rfl⟩⟩
    · rintro (⟨rc₁, fw₁, hcall, hturn⟩ | ⟨m, ⟨rc₁, fw₁, hcall, hturn⟩, hrest⟩)
      · refine ⟨rc₁, fw₁, hcall, ?_⟩
        by_cases hrc : rc₁ = cliOk
        · rw [if_pos hrc] at hturn ⊢
          obtain ⟨rc₂, hcall₂, hstop⟩ := hturn
          exact ⟨rc₂, fw', hcall₂, (hbody rc₂ fw').mpr (.inl ⟨hstop.symm, rfl⟩)⟩
        · rw [if_neg hrc] at hturn ⊢
          exact ⟨Option.some.inj hturn.1, hturn.2⟩
      · refine ⟨rc₁, fw₁, hcall, ?_⟩
        by_cases hrc : rc₁ = cliOk
        · rw [if_pos hrc] at hturn ⊢
          obtain ⟨rc₂, hcall₂, hgo⟩ := hturn
          exact ⟨rc₂, m, hcall₂, (hbody rc₂ m).mpr (.inr ⟨hgo.symm, hrest⟩)⟩
        · rw [if_neg hrc] at hturn
          exact absurd hturn.1 (by simp)

/-- **`if` is a branch.** -/
theorem returns_if (htick : ∀ t, ok (.tick t)) {cond thenArgv elseArgv : List Arg} {rc₀ : Int} :
    (shellCalls ok).Returns [.dispatch sh cond, .ifCond sh thenArgv elseArgv] (fw, rc₀) (fw', rc) ↔
      Branches (Calls ok sh cond) (Calls ok sh thenArgv) (Calls ok sh elseArgv) fw rc fw' := by
  rw [returns_call]
  refine exists_congr fun rc₁ => exists_congr fun fw₁ => and_congr_right fun _ => ?_
  by_cases hrc : rc₁ = cliOk
  · have hrun : ∀ t, runFrame t (.ifCond sh thenArgv elseArgv) fw₁ rc₁ =
        some (fw₁.goto (.dispatch sh thenArgv) rc₁) := fun t => congrArg some (if_pos hrc)
    rw [if_pos hrc, returns_runs htick rfl hrun]
    exact calls_rc
  · rw [if_neg hrc]
    by_cases helse : elseArgv = []
    · -- without `else` there is nothing to call
      have hrun : ∀ t, runFrame t (.ifCond sh thenArgv elseArgv) fw₁ rc₁ = some (fw₁.ret cliOk) :=
        fun t => congrArg some ((if_neg hrc).trans (if_neg (not_not.mpr helse)))
      rw [returns_runs htick rfl hrun, returns_ret, helse, calls_nil htick]
    · have hrun : ∀ t, runFrame t (.ifCond sh thenArgv elseArgv) fw₁ rc₁ =
          some (fw₁.goto (.dispatch sh elseArgv) rc₁) := fun t =>
        congrArg some ((if_neg hrc).trans (if_pos helse))
      rw [returns_runs htick rfl hrun]
      exact calls_rc

/-! ## `run` -/

/-- A call of `cli_dispatch_line`, with what it returns and leaves behind. -/
def LineCalls {n : Nat} (ok : Event → Prop) (sh : Shell) (line : Buffer n) (fw : Fw) (rc : Int)
    (fw' : Fw) : Prop :=
  (shellCalls ok).Returns (cliDispatchLine sh line fw).push
    ((cliDispatchLine sh line fw).fw, (cliDispatchLine sh line fw).rc) (fw', rc)

/-- The lines of a script from an offset on, as its slot holds them by then. -/
inductive RunLines (ok : Event → Prop) (sh : Shell) (script : OpenScript) :
    Nat → Fw → Fw → Prop where
  | done {off : Nat} {fw : Fw} (h : script.bodyLen ≤ off) : RunLines ok sh script off fw fw
  | skip {off : Nat} {fw fw' : Fw} (h : off < script.bodyLen)
      (hskip : runSkips (runLine (script.text fw.flash.image) off) = true)
      (hrest : RunLines ok sh script (runAdvance (script.text fw.flash.image) off) fw fw') :
      RunLines ok sh script off fw fw'
  | line {off : Nat} {fw fw₁ fw' : Fw} {rc : Int} (h : off < script.bodyLen)
      (hskip : runSkips (runLine (script.text fw.flash.image) off) = false)
      (hline : LineCalls ok sh (Buffer.ofString cliLineMax (runLine (script.text fw.flash.image)
        off)) fw rc fw₁)
      (hrest : RunLines ok sh script (runAdvance (script.text fw.flash.image) off) fw₁ fw') :
      RunLines ok sh script off fw fw'

section RunLines

variable {script : OpenScript} {off : Nat}

theorem runLines_done (h : script.bodyLen ≤ off) : RunLines ok sh script off fw fw' ↔ fw' = fw := by
  constructor
  · rintro (_ | ⟨hoff, -, -⟩ | ⟨hoff, -, -, -⟩)
    · rfl
    · exact absurd h (Nat.not_le.mpr hoff)
    · exact absurd h (Nat.not_le.mpr hoff)
  · rintro rfl
    exact .done h

theorem runLines_skip (h : off < script.bodyLen)
    (hskip : runSkips (runLine (script.text fw.flash.image) off) = true) :
    RunLines ok sh script off fw fw' ↔
      RunLines ok sh script (runAdvance (script.text fw.flash.image) off) fw fw' := by
  refine ⟨?_, .skip h hskip⟩
  rintro (hend | ⟨-, -, hrest⟩ | ⟨-, hno, -, -⟩)
  · exact absurd h (Nat.not_lt.mpr hend)
  · exact hrest
  · exact absurd (hskip.symm.trans hno) (by simp)

theorem runLines_line (h : off < script.bodyLen)
    (hskip : ¬ runSkips (runLine (script.text fw.flash.image) off) = true) :
    RunLines ok sh script off fw fw' ↔ ∃ rc fw₁,
      LineCalls ok sh (Buffer.ofString cliLineMax (runLine (script.text fw.flash.image) off)) fw
        rc fw₁ ∧
        RunLines ok sh script (runAdvance (script.text fw.flash.image) off) fw₁ fw' := by
  constructor
  · rintro (hend | ⟨-, hyes, -⟩ | ⟨-, -, hline, hrest⟩)
    · exact absurd h (Nat.not_lt.mpr hend)
    · exact absurd hyes hskip
    · exact ⟨_, _, hline, hrest⟩
  · rintro ⟨rc, fw₁, hline, hrest⟩
    exact .line h (Bool.eq_false_of_not_eq_true hskip) hline hrest

end RunLines

/-- **`run` is the lines of its script**, and always succeeds. -/
theorem returns_run (htick : ∀ t, ok (.tick t)) {script : OpenScript} {off : Nat} {rc₀ : Int} :
    (shellCalls ok).Returns [.runNext sh script off] (fw, rc₀) (fw', rc) ↔
      ∃ fw₁, RunLines ok sh script off fw fw₁ ∧ rc = cliOk ∧ fw' = (runReturn fw₁).fw := by
  generalize hleft : script.bodyLen - off = left
  induction left using Nat.strong_induction_on generalizing off fw rc₀ with
  | _ left ih =>
    have hrun : ∀ t, runFrame t (.runNext sh script off) fw rc₀ = some (runNext sh script off fw) :=
      fun _ => rfl
    rw [returns_runs htick rfl hrun, runNext]
    by_cases hoff : off < script.bodyLen
    · -- every line is further on
      have hfar := @runAdvance_gt (script.text fw.flash.image) off (by rw [text_length]; exact hoff)
      have hrest : ∀ fw₁ rc₁, (shellCalls ok).Returns
          [.runNext sh script (runAdvance (script.text fw.flash.image) off)] (fw₁, rc₁) (fw', rc) ↔
              _ :=
        fun fw₁ rc₁ => ih _ (by omega) rfl
      rw [if_pos hoff]
      dsimp only
      by_cases hskip : runSkips (runLine (script.text fw.flash.image) off) = true
      · rw [if_pos hskip]
        refine (hrest fw cliOk).trans (exists_congr fun fw₁ => and_congr_left fun _ => ?_)
        exact (runLines_skip hoff hskip).symm
      · rw [if_neg hskip]
        dsimp only
        simp only [runLines_line hoff hskip]
        rw [returns_append]
        constructor
        · rintro ⟨⟨fw₁, rc₁⟩, hline, h⟩
          obtain ⟨fw₂, hlines, hend⟩ := (hrest fw₁ rc₁).mp h
          exact ⟨fw₂, ⟨rc₁, fw₁, hline, hlines⟩, hend⟩
        · rintro ⟨fw₂, ⟨rc₁, fw₁, hline, hlines⟩, hret⟩
          exact ⟨(fw₁, rc₁), hline, (hrest fw₁ rc₁).mpr ⟨fw₂, hlines, hret⟩⟩
    · rw [if_neg hoff, runReturn, returns_ret]
      simp only [runLines_done (Nat.le_of_not_lt hoff), exists_eq_left]
      rfl

end Commands

end PicoBLE.Cli
