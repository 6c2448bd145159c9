import PicoBLE.Cli.RunScript

/-!
# Commands within commands

`repeat`, `while` and `if` call `cli_dispatch_argv` again, each with a slice of
its own arguments that is at least two shorter. `run` starts over with lines of
up to sixteen arguments, but not while a script runs. So a command line comes
to an end, and at most sixteen handlers are active at a time: eight until a
slice has come down to `run` and its script, eight more in a line of it.

What is shown is a bound on the steps that are left, for each frame that can be
in progress, and a bound on the handlers that can still come above it:

* **N1.** Every tick takes from the first bound.
* **N2.** At every frame, the handlers below it and the second bound make at most sixteen.
* **N3.** There is at most one loop of `run`, and `g_running` is set while there is one.

Nothing that comes from outside while a command waits is counted here, so the
runs are those in which the world does no more than let such a command return.
-/

namespace PicoBLE.Cli

open PicoBLE.Storage (scriptBodyMax OpenScript scriptsOpen)

/-! ## What belongs to a command line -/

/-- No input and no timer: the firmware runs on, or the command that waits does. -/
def Event.own : Event → Bool
  | .tick _ => true
  | .chunk _ => true
  | .httpDone _ _ => true
  | .httpGet => true
  | .leafDone _ => true
  | .elsewhere _ => true
  | _ => false

/-- A function runs on, or a command that waited returns. -/
def Event.advances : Event → Bool
  | .tick _ => true
  | .httpDone _ _ => true
  | .leafDone _ => true
  | _ => false

/-- The handlers that have been called and have not returned. -/
def activations (fs : List Frame) : Nat := fs.count .handled

/-- The most handlers that are active at a time. -/
def maxNesting : Nat := 16

/-! ## How many steps -/

/-- The steps that `cli_dispatch_argv` takes on `k` arguments, when a script takes `s`. -/
def argvBudget (s : Nat) : Nat → Nat
  | 0 => 1
  | k + 1 => 200000 * (argvBudget s k + 3) + s + 3

/-- The steps of one line of a script. There is no other script to run in it. -/
def scriptLineBudget : Nat := argvBudget 0 cliMaxArgs + 1

/-- The steps of a script. -/
def scriptBudget : Nat := scriptBodyMax * scriptLineBudget + 1

/-- The steps of a command line. -/
def lineBudget : Nat := argvBudget scriptBudget cliMaxArgs

/-- The steps until a frame is gone, with all that it calls. -/
def Frame.budget (s : Nat) : Frame → Nat
  | .feed _ _ _ => 0
  | .lineDone _ => 0
  | .dispatch _ argv => argvBudget s argv.length
  | .handled => 1
  | .repeatNext _ sub i n => (n - i) * (argvBudget s sub.length + 2) + 1
  | .repeatCheck _ sub i n => (n - (i + 1)) * (argvBudget s sub.length + 2) + 2
  | .whileNext _ cond body i =>
    (whileMaxIter - i) * (argvBudget s cond.length + argvBudget s body.length + 3) + 1
  | .whileCond _ cond body i => argvBudget s body.length +
    (whileMaxIter - (i + 1)) * (argvBudget s cond.length + argvBudget s body.length + 3) + 3
  | .whileBody _ cond body i =>
    (whileMaxIter - (i + 1)) * (argvBudget s cond.length + argvBudget s body.length + 3) + 2
  | .ifCond _ thenArgv elseArgv => argvBudget s thenArgv.length + argvBudget s elseArgv.length + 1
  | .runNext _ script off => (script.bodyLen - off) * scriptLineBudget + 1
  | .fetch _ => 1
  | .leaf _ _ => 1

/-- The steps that a script takes if it is run above these frames. -/
def available (below : List Frame) : Nat := if runs below = [] then scriptBudget else 0

/-- The steps that are left. -/
def stackBudget : List Frame → Nat
  | [] => 0
  | f :: below => f.budget (available below) + stackBudget below

/-! ## How many handlers -/

/-- The handlers that can be active at once in a call with these arguments. -/
def argvRoom (argv : List Arg) : Nat := (argv.length + 1) / 2

/-- The handlers that can come of a frame, itself and a script apart. -/
def Frame.room : Frame → Nat
  | .dispatch _ argv => argvRoom argv
  | .handled => 1
  | .repeatNext _ sub _ _ => argvRoom sub
  | .repeatCheck _ sub _ _ => argvRoom sub
  | .whileNext _ cond body _ => max (argvRoom cond) (argvRoom body)
  | .whileCond _ cond body _ => max (argvRoom cond) (argvRoom body)
  | .whileBody _ cond body _ => max (argvRoom cond) (argvRoom body)
  | .ifCond _ thenArgv elseArgv => max (argvRoom thenArgv) (argvRoom elseArgv)
  | .runNext _ _ _ => 8
  | _ => 0

/-- The handlers that a script adds, if it can be run. -/
def spare (fs : List Frame) : Nat := if runs fs = [] then 8 else 0

/-- N2 -/
def Fits : List Frame → Prop
  | [] => True
  | f :: below => activations below + f.room + spare (f :: below) ≤ maxNesting ∧ Fits below

/-- The handlers that frames pushed together can make. -/
def need : List Frame → Nat
  | [] => 0
  | f :: fs => max (activations fs + f.room) (need fs)

/-! ## Pushing frames -/

/-- A frame of a command: neither line assembly nor the loop of `run`. -/
def Frame.inner : Frame → Bool
  | .feed _ _ _ => false
  | .lineDone _ => false
  | .runNext _ _ _ => false
  | _ => true

theorem run_of_inner {f : Frame} (h : f.inner = true) : f.run = none := by
  cases f with
  | runNext _ _ _ => exact absurd h Bool.false_ne_true
  | _ => rfl

theorem runs_of_inner {push : List Frame} (h : ∀ f ∈ push, f.inner = true) (below : List Frame) :
    runs (push ++ below) = runs below := by
  have hnil : runs push = [] := List.filterMap_eq_nil_iff.mpr fun f hf => run_of_inner (h f hf)
  rw [runs_append, hnil, List.nil_append]

theorem stackBudget_push {push : List Frame} (h : ∀ f ∈ push, f.inner = true) (below : List Frame) :
    stackBudget (push ++ below) = (push.map (Frame.budget (available below))).sum +
      stackBudget below := by
  induction push with
  | nil => rw [List.nil_append, List.map_nil, List.sum_nil, Nat.zero_add]
  | cons f push ih =>
    have hpush : ∀ g ∈ push, g.inner = true := fun g hg => h g (List.mem_cons_of_mem _ hg)
    have havail : available (push ++ below) = available below := by
      rw [available, runs_of_inner hpush, available]
    rw [List.cons_append, stackBudget, havail, ih hpush, List.map_cons,
      List.sum_cons, Nat.add_assoc]

theorem fits_push {push below : List Frame} (h : ∀ f ∈ push, f.inner = true)
    (hroom : activations below + need push + spare below ≤ maxNesting) (hfit : Fits below) :
    Fits (push ++ below) := by
  induction push with
  | nil => exact hfit
  | cons f push ih =>
    have hpush : ∀ g ∈ push, g.inner = true := fun g hg => h g (List.mem_cons_of_mem _ hg)
    have hspare : spare (f :: (push ++ below)) = spare below := by
      rw [spare, ← List.cons_append, runs_of_inner h, spare]
    have hact : activations (push ++ below) = activations push + activations below :=
      List.count_append
    have hmax : activations push + f.room ≤ need (f :: push) ∧ need push ≤ need (f :: push) :=
      ⟨Nat.le_max_left _ _, Nat.le_max_right _ _⟩
    rw [List.cons_append]
    refine ⟨?_, ih hpush (by omega)⟩
    rw [hspare, hact]
    omega

/-- Nowhere are there more handlers than fit. -/
theorem Fits.activations_le {fs : List Frame} (h : Fits fs) : activations fs ≤ maxNesting := by
  induction fs with
  | nil => exact Nat.zero_le _
  | cons f below ih =>
    obtain ⟨hf, hbelow⟩ := h
    by_cases hh : f = .handled
    · subst hh
      have hroom : Frame.handled.room = 1 := rfl
      have hcount : activations (.handled :: below) = activations below + 1 := List.count_cons_self
      omega
    · have hcount : activations (f :: below) = activations below := List.count_cons_of_ne hh
      rw [hcount]
      exact ih hbelow

/-! ## A slice is shorter -/

theorem argvBudget_pos (s k : Nat) : 0 < argvBudget s k := by
  cases k with
  | zero => exact Nat.one_pos
  | succ k =>
    rw [argvBudget]
    omega

theorem argvBudget_mono (s : Nat) : Monotone (argvBudget s) := by
  refine monotone_nat_of_le_succ fun k => ?_
  rw [argvBudget]
  omega

/-- A call with arguments leaves room for what its handler does. -/
theorem argvBudget_slice {s k : Nat} {argv : List Arg} (h : k + 2 ≤ argv.length) :
    200000 * (argvBudget s k + 3) + s + 3 ≤ argvBudget s argv.length :=
  argvBudget_mono s (show k + 1 ≤ argv.length by omega)

/-- What a handler that has been called with these arguments can leave in its place. -/
structure HandsOn (argv : List Arg) (push : List Frame) : Prop where
  inner : ∀ f ∈ push, f.inner = true
  budget : ∀ s, (push.map (Frame.budget s)).sum + 2 ≤ argvBudget s argv.length
  room : need push + 1 ≤ argvRoom argv

/-- A handler that returns at once. -/
theorem handsOn_nil {argv : List Arg} (h : argv ≠ []) : HandsOn argv [] := by
  have hlen : 0 < argv.length := List.length_pos_iff.mpr h
  refine ⟨fun _ hf => absurd hf List.not_mem_nil, fun s => ?_, ?_⟩
  · have hone : argvBudget s 1 ≤ argvBudget s argv.length := argvBudget_mono s hlen
    rw [argvBudget] at hone
    show 0 + 2 ≤ _
    omega
  · show 0 + 1 ≤ (argv.length + 1) / 2
    omega

/-- A handler that waits. -/
theorem handsOn_wait {argv : List Arg} (h : argv ≠ []) {f : Frame} (hin : f.inner = true)
    (hone : ∀ s, f.budget s = 1) (hroom : f.room = 0) : HandsOn argv [f] := by
  have hlen : 0 < argv.length := List.length_pos_iff.mpr h
  refine ⟨fun g hg => List.mem_singleton.mp hg ▸ hin, fun s => ?_, ?_⟩
  · have hmono : argvBudget s 1 ≤ argvBudget s argv.length := argvBudget_mono s hlen
    rw [argvBudget] at hmono
    rw [List.map_singleton, List.sum_singleton, hone]
    omega
  · show max (0 + f.room) 0 + 1 ≤ (argv.length + 1) / 2
    omega

theorem handleRepeat_handsOn (sh : Shell) {argv : List Arg} (fw : Fw) (hne : argv ≠ []) :
    HandsOn argv (handleRepeat sh argv fw).push := by
  rcases handleRepeat_cases sh argv fw with ⟨rc, he⟩ | ⟨name, count, a, rest, n, rfl, hturns, he⟩
  · rw [he]
    exact handsOn_nil hne
  · rw [he]
    refine ⟨fun f hf => List.mem_singleton.mp hf ▸ rfl, fun s => ?_, ?_⟩
    · have hslice :=
        @argvBudget_slice s (a :: rest).length (name :: count :: a :: rest) (Nat.le_refl _)
      have hmul := Nat.mul_le_mul_right (argvBudget s (a :: rest).length + 2) hturns
      show (n - 0) * (argvBudget s (a :: rest).length + 2) + 1 + 0 + 2 ≤ _
      rw [Nat.sub_zero]
      omega
    · show max (0 + argvRoom (a :: rest)) 0 + 1 ≤ argvRoom (name :: count :: a :: rest)
      simp only [argvRoom, List.length_cons]
      omega

/-- The word that is found leaves both parts shorter, and one in front of it that is not empty. -/
theorem findWord_slices {fw : Fw} {word : String} {argv : List Arg} {i : Nat}
    (h : findWord fw word (argv.drop 1) = some i) (hi0 : i ≠ 0) :
    0 < ((argv.drop 1).take i).length ∧
      ((argv.drop 1).take i).length + ((argv.drop 1).drop (i + 1)).length + 2 = argv.length := by
  obtain ⟨hi, -⟩ := List.findIdx?_eq_some_iff_getElem.mp h
  rw [List.length_drop] at hi
  simp only [List.length_take, List.length_drop]
  omega

theorem handleWhile_handsOn (sh : Shell) {argv : List Arg} (fw : Fw) (hne : argv ≠ []) :
    HandsOn argv (handleWhile sh argv fw).push := by
  rcases handleWhile_cases sh argv fw with ⟨rc, he⟩ | ⟨i, hi, h0, hnil, he⟩
  · rw [he]
    exact handsOn_nil hne
  · -- neither part is empty, so each is at least two shorter
    obtain ⟨hcond, hparts⟩ := findWord_slices hi h0
    have hbody : 0 < ((argv.drop 1).drop (i + 1)).length := List.length_pos_iff.mpr hnil
    rw [he]
    generalize (argv.drop 1).take i = cond at *
    generalize (argv.drop 1).drop (i + 1) = body at *
    refine ⟨fun f hf => List.mem_singleton.mp hf ▸ rfl, fun s => ?_, ?_⟩
    · have h1 := @argvBudget_slice s cond.length argv (by omega)
      have h2 := @argvBudget_slice s body.length argv (by omega)
      show (10000 - 0) * (argvBudget s cond.length + argvBudget s body.length + 3) + 1 + 0 + 2 ≤ _
      omega
    · show max (0 + max (argvRoom cond) (argvRoom body)) 0 + 1 ≤ argvRoom argv
      simp only [argvRoom]
      omega

/-- The branches of `if` are parts of what stands behind `then`. -/
theorem ifBranches_length (fw : Fw) (after : List Arg) :
    (ifBranches fw after).1.length ≤ after.length ∧
    (ifBranches fw after).2.length ≤ after.length := by
  unfold ifBranches
  split
  · exact ⟨Nat.le_refl _, Nat.zero_le _⟩
  · dsimp only
    rw [List.length_take, List.length_drop]
    omega

theorem handleIf_handsOn (sh : Shell) {argv : List Arg} (fw : Fw) (hne : argv ≠ []) :
    HandsOn argv (handleIf sh argv fw).push := by
  rcases handleIf_cases sh argv fw with ⟨rc, he⟩ | ⟨i, hi, h0, hnil, he⟩
  · rw [he]
    exact handsOn_nil hne
  · obtain ⟨hcond, hparts⟩ := findWord_slices hi h0
    have hbranches := ifBranches_length fw ((argv.drop 1).drop (i + 1))
    have hthen : 0 < (ifBranches fw ((argv.drop 1).drop (i + 1))).1.length :=
      List.length_pos_iff.mpr hnil
    rw [he]
    generalize ifBranches fw ((argv.drop 1).drop (i + 1)) = branches at *
    generalize (argv.drop 1).take i = cond at *
    refine ⟨fun f hf => ?_, fun s => ?_, ?_⟩
    · simp only [List.mem_cons, List.not_mem_nil, or_false] at hf
      rcases hf with rfl | rfl <;> rfl
    · have h1 := @argvBudget_slice s cond.length argv (by omega)
      have h2 := @argvBudget_slice s branches.1.length argv (by omega)
      have h3 := @argvBudget_slice s branches.2.length argv (by omega)
      show argvBudget s cond.length +
        (argvBudget s branches.1.length + argvBudget s branches.2.length + 1 + 0) + 2 ≤ _
      omega
    · show
        max (0 + argvRoom cond) (max (0 + max (argvRoom branches.1) (argvRoom branches.2)) 0) + 1 ≤
          argvRoom argv
      simp only [argvRoom]
      omega

theorem handleScript_handsOn (t : Tick) (sh : Shell) {argv : List Arg} (fw : Fw) (hne : argv ≠ []) :
    HandsOn argv (handleScript t sh argv fw).push := by
  rcases handleScript_cases t sh argv fw with ⟨rc, he⟩ | ⟨name, he⟩ | he
    | ⟨flash, rc, he⟩ | ⟨name, he⟩
  · rw [he]; exact handsOn_nil hne
  · rw [he]; exact handsOn_nil hne
  · rw [he]; exact handsOn_nil hne
  · rw [he]; exact handsOn_nil hne
  · rw [he]; exact handsOn_wait hne rfl (fun _ => rfl) rfl

theorem handleSet_push (argv : List Arg) (fw : Fw) : (handleSet argv fw).push = [] := by
  obtain ⟨vars, rc, he⟩ := handleSet_eq argv fw
  rw [he]
  rfl

theorem handleUnset_push (argv : List Arg) (fw : Fw) : (handleUnset argv fw).push = [] := by
  obtain ⟨vars, rc, he⟩ := handleUnset_eq argv fw
  rw [he]
  rfl

/-- `run` returns at once, or enters a loop that was not there. -/
theorem handleRun_push (sh : Shell) (argv : List Arg) (fw : Fw) :
    (handleRun sh argv fw).push = [] ∨ fw.running = false ∧
      ∃ script, script.bodyLen ≤ scriptBodyMax ∧
      (handleRun sh argv fw).push = [.runNext sh script 0] := by
  rcases handleRun_cases sh argv fw with ⟨rc, he⟩ | ⟨hstopped, name, script, hopen,
    he | ⟨shell, -, he⟩⟩
  · rw [he]; exact .inl rfl
  · rw [he]; exact .inl rfl
  · obtain ⟨slot, hslot⟩ := scriptsOpen_openIn hopen
    rw [he]
    exact .inr ⟨hstopped, script, slotBodyLen_le hslot.2, rfl⟩

/-! ## One tick -/

/-- What a frame leaves in its place takes fewer steps, and no more handlers. -/
structure Handover (f : Frame) (push : List Frame) : Prop where
  inner : ∀ g ∈ push, g.inner = true
  budget : ∀ s, (push.map (Frame.budget s)).sum < f.budget s
  room : need push ≤ f.room

theorem need_handled (push : List Frame) : need (push ++ [.handled]) = need push + 1 := by
  induction push with
  | nil => rfl
  | cons f push ih =>
    have hact : activations (push ++ [.handled]) = activations push + 1 := List.count_append
    rw [List.cons_append, need, need, ih, hact]
    omega

theorem HandsOn.called {argv : List Arg} {push : List Frame} (h : HandsOn argv push) (sh : Shell) :
    Handover (.dispatch sh argv) (push ++ [.handled]) := by
  refine ⟨fun g hg => ?_, fun s => ?_, ?_⟩
  · rcases List.mem_append.mp hg with hg | hg
    · exact h.inner g hg
    · exact List.mem_singleton.mp hg ▸ rfl
  · have hsum := h.budget s
    rw [List.map_append, List.sum_append]
    show _ + (1 + 0) < argvBudget s argv.length
    omega
  · rw [need_handled]
    exact h.room

/-- A frame that is done. -/
theorem handover_nil {f : Frame} (hpos : ∀ s, 0 < f.budget s) : Handover f [] :=
  ⟨fun _ hg => absurd hg List.not_mem_nil, hpos, Nat.zero_le _⟩

/-- **The call of a handler**, which is `run` if it is not a smaller task. -/
theorem dispatch_handover (t : Tick) (sh : Shell) (argv : List Arg) (fw : Fw) :
    Handover (.dispatch sh argv) (cliDispatchArgv t sh argv fw).push ∨
      argv ≠ [] ∧ fw.running = false ∧ ∃ script, script.bodyLen ≤ scriptBodyMax ∧
        (cliDispatchArgv t sh argv fw).push = [.runNext sh script 0, .handled] := by
  unfold cliDispatchArgv
  cases argv with
  | nil => exact .inl (handover_nil fun s => argvBudget_pos s _)
  | cons a args =>
    have hne : a :: args ≠ [] := List.cons_ne_nil a args
    dsimp only
    cases cliCommandFind (fw.str a) with
    | none => exact .inl (handover_nil fun s => argvBudget_pos s _)
    | some h =>
      have hdone : ∀ {r : Ran}, r.push = [] →
          Handover (.dispatch sh (a :: args)) r.called.push := by
        intro r hpush
        rw [Ran.called, hpush]
        exact (handsOn_nil hne).called sh
      dsimp only
      cases h with
      | cmdRepeat => exact .inl ((handleRepeat_handsOn sh fw hne).called sh)
      | cmdWhile => exact .inl ((handleWhile_handsOn sh fw hne).called sh)
      | cmdIf => exact .inl ((handleIf_handsOn sh fw hne).called sh)
      | cmdScript => exact .inl ((handleScript_handsOn t sh fw hne).called sh)
      | cmdSet => exact .inl (hdone (handleSet_push _ fw))
      | cmdUnset => exact .inl (hdone (handleUnset_push _ fw))
      | leaf => exact .inl ((handsOn_wait hne rfl (fun _ => rfl) rfl).called sh)
      | cmdRun =>
        rcases handleRun_push sh (a :: args) fw with hpush | ⟨hrun, script, hlen, hpush⟩
        · exact .inl (hdone hpush)
        · refine .inr ⟨hne, hrun, script, hlen, ?_⟩
          rw [callHandler, Ran.called, hpush]
          rfl

/-- One turn of a loop is paid for by the turns that are left. -/
theorem turn_left {i n : Nat} (h : i < n) (c : Nat) : (n - i) * c = c + (n - (i + 1)) * c := by
  rw [show n - i = (n - (i + 1)) + 1 by omega, Nat.succ_mul, Nat.add_comm]

theorem repeatNext_handover (sh : Shell) (sub : List Arg) (i n : Nat) (fw : Fw) :
    Handover (.repeatNext sh sub i n) (repeatNext sh sub i n fw).push := by
  unfold repeatNext
  split
  · next hi =>
    refine ⟨fun g hg => ?_, fun s => ?_, ?_⟩
    · simp only [List.mem_cons, List.not_mem_nil, or_false] at hg
      rcases hg with rfl | rfl <;> rfl
    · have hturn := turn_left hi (argvBudget s sub.length + 2)
      show argvBudget s sub.length + ((n - (i + 1)) * (argvBudget s sub.length + 2) + 2 + 0) <
        (n - i) * (argvBudget s sub.length + 2) + 1
      omega
    · show max (0 + argvRoom sub) (max (0 + argvRoom sub) 0) ≤ argvRoom sub
      omega
  · exact handover_nil fun s => Nat.succ_pos _

theorem repeatCheck_handover (sh : Shell) (sub : List Arg) (i n : Nat) (rc : Int) (fw : Fw) :
    Handover (.repeatCheck sh sub i n) (repeatCheck sh sub i n rc fw).push := by
  unfold repeatCheck
  split
  · exact handover_nil fun s => Nat.succ_pos _
  · refine ⟨fun g hg => List.mem_singleton.mp hg ▸ rfl, fun s => Nat.lt_succ_self _, ?_⟩
    show max (0 + argvRoom sub) 0 ≤ argvRoom sub
    omega

theorem whileNext_handover (sh : Shell) (cond body : List Arg) (i : Nat) (fw : Fw) :
    Handover (.whileNext sh cond body i) (whileNext sh cond body i fw).push := by
  unfold whileNext
  split
  · next hi =>
    refine ⟨fun g hg => ?_, fun s => ?_, ?_⟩
    · simp only [List.mem_cons, List.not_mem_nil, or_false] at hg
      rcases hg with rfl | rfl <;> rfl
    · have hturn := turn_left hi (argvBudget s cond.length + argvBudget s body.length + 3)
      show argvBudget s cond.length + (argvBudget s body.length +
        (whileMaxIter - (i + 1)) *
          (argvBudget s cond.length + argvBudget s body.length + 3) + 3 + 0) <
        (whileMaxIter - i) * (argvBudget s cond.length + argvBudget s body.length + 3) + 1
      omega
    · show max (0 + argvRoom cond) (max (0 + max (argvRoom cond) (argvRoom body)) 0) ≤
        max (argvRoom cond) (argvRoom body)
      omega
  · exact handover_nil fun s => Nat.succ_pos _

theorem whileCond_handover (sh : Shell) (cond body : List Arg) (i : Nat) (rc : Int) (fw : Fw) :
    Handover (.whileCond sh cond body i) (whileCond sh cond body i rc fw).push := by
  unfold whileCond
  split
  · exact handover_nil fun s => Nat.succ_pos _
  · refine ⟨fun g hg => ?_, fun s => ?_, ?_⟩
    · simp only [List.mem_cons, List.not_mem_nil, or_false] at hg
      rcases hg with rfl | rfl <;> rfl
    · show argvBudget s body.length +
        ((whileMaxIter - (i + 1)) *
          (argvBudget s cond.length + argvBudget s body.length + 3) + 2 + 0) <
        argvBudget s body.length +
          (whileMaxIter - (i + 1)) * (argvBudget s cond.length + argvBudget s body.length + 3) + 3
      omega
    · show max (0 + argvRoom body) (max (0 + max (argvRoom cond) (argvRoom body)) 0) ≤
        max (argvRoom cond) (argvRoom body)
      omega

theorem whileBody_handover (sh : Shell) (cond body : List Arg) (i : Nat) (rc : Int) (fw : Fw) :
    Handover (.whileBody sh cond body i) (whileBody sh cond body i rc fw).push := by
  unfold whileBody
  split
  · exact handover_nil fun s => Nat.succ_pos _
  · refine ⟨fun g hg => List.mem_singleton.mp hg ▸ rfl, fun s => Nat.lt_succ_self _, ?_⟩
    show max (0 + max (argvRoom cond) (argvRoom body)) 0 ≤ max (argvRoom cond) (argvRoom body)
    omega

theorem ifCond_handover (sh : Shell) (thenArgv elseArgv : List Arg) (rc : Int) (fw : Fw) :
    Handover (.ifCond sh thenArgv elseArgv) (ifCond sh thenArgv elseArgv rc fw).push := by
  have hbranch : ∀ argv, argv = thenArgv ∨ argv = elseArgv →
      Handover (.ifCond sh thenArgv elseArgv) [.dispatch sh argv] := by
    intro argv hargv
    refine ⟨fun g hg => List.mem_singleton.mp hg ▸ rfl, fun s => ?_, ?_⟩
    · show argvBudget s argv.length + 0 <
        argvBudget s thenArgv.length + argvBudget s elseArgv.length + 1
      rcases hargv with rfl | rfl <;> omega
    · show max (0 + argvRoom argv) 0 ≤ max (argvRoom thenArgv) (argvRoom elseArgv)
      rcases hargv with rfl | rfl <;> omega
  unfold ifCond
  split
  · exact hbranch thenArgv (.inl rfl)
  · split
    · exact hbranch elseArgv (.inr rfl)
    · exact handover_nil fun s => Nat.succ_pos _

/-- A command line comes to a call with at most sixteen arguments, or to nothing. -/
theorem dispatchLine_push {n : Nat} (sh : Shell) (line : Buffer n) (fw : Fw) :
    (cliDispatchLine sh line fw).push = [] ∨
      ∃ argv, argv.length ≤ cliMaxArgs ∧
      (cliDispatchLine sh line fw).push = [.dispatch sh argv] := by
  rcases dispatchLine_cases sh line fw with
    ⟨rc, -, he⟩ | ⟨toks, buf, off, htoks, ⟨-, he⟩ | ⟨argv, hexp, he⟩⟩
  · rw [he]; exact .inl rfl
  · rw [he]; exact .inl rfl
  · have hlen : toks.length ≤ cliMaxArgs := by
      unfold lineTokens at htoks
      split at htoks
      · exact absurd htoks (by simp)
      · split at htoks
        · exact absurd htoks (by simp)
        · exact absurd htoks (by simp)
        · next hparse =>
          obtain rfl := Except.ok.inj htoks
          exact argvOf_length hparse
    rw [he]
    refine .inr ⟨argv, ?_, rfl⟩
    rw [expandFrom_length (congrArg (fun r => r.2.2) hexp)]
    exact hlen

theorem dispatchLine_inner {n : Nat} (sh : Shell) (line : Buffer n) (fw : Fw) :
    ∀ f ∈ (cliDispatchLine sh line fw).push, f.inner = true := by
  rcases dispatchLine_push sh line fw with hnil | ⟨argv, -, hpush⟩
  · rw [hnil]
    exact fun _ hf => absurd hf List.not_mem_nil
  · rw [hpush]
    exact fun f hf => List.mem_singleton.mp hf ▸ rfl

/-- A line that is dispatched, over some frames. -/
theorem dispatchLine_fits {n : Nat} (sh : Shell) (line : Buffer n) (fw : Fw) {below : List Frame}
    (hroom : activations below + 8 + spare below ≤ maxNesting) (hfit : Fits below) :
    (∀ s, ((cliDispatchLine sh line fw).push.map (Frame.budget s)).sum ≤ argvBudget s cliMaxArgs) ∧
      Fits ((cliDispatchLine sh line fw).push ++ below) := by
  rcases dispatchLine_push sh line fw with hnil | ⟨argv, hlen, hpush⟩
  · rw [hnil]
    exact ⟨fun s => Nat.zero_le _, hfit⟩
  · have hin := dispatchLine_inner sh line fw
    rw [hpush] at hin ⊢
    refine ⟨fun s => ?_, fits_push hin ?_ hfit⟩
    · rw [List.map_singleton, List.sum_singleton]
      exact argvBudget_mono s hlen
    · have hneed : need [.dispatch sh argv] = max (0 + (argv.length + 1) / 2) 0 := rfl
      have hmax : argv.length ≤ 16 := hlen
      omega

/-! ## Every step -/

/-- N1 counts down while N2 and N3 hold. -/
structure Nested (m : Machine) : Prop where
  inner : ∀ f ∈ m.stack, f.inner = true ∨ f.run.isSome
  /-- N2 -/
  fits : Fits m.stack
  /-- N3 -/
  loop : runs m.stack = [] ∨ m.fw.running = true ∧ ∃ loop, runs m.stack = [loop]

theorem Nested.loop_step {m m' : Machine} {e : Event} (h : Nested m) (hs : m.step e = some m') :
    runs m'.stack = [] ∨ m'.fw.running = true ∧ ∃ loop, runs m'.stack = [loop] := by
  have hbusy : ∀ {sh script off below}, m.stack = .runNext sh script off :: below →
      m.fw.running = true ∧ runs below = [] := by
    intro sh script off below hstack
    have hcons : runs m.stack = (script, off) :: runs below := by rw [hstack, runs_cons_run]
    rcases h.loop with hnil | ⟨hrun, loop, hone⟩
    · exact absurd (hcons.symm.trans hnil) (List.cons_ne_nil _ _)
    · exact ⟨hrun, (List.cons.inj (hcons.symm.trans hone)).2⟩
  cases runStep_of_step hs with
  | same hr _ hruns _ =>
    rw [hr, hruns]
    exact h.loop
  | @opened sh slot script below hidle hr _ _ hstack hbelow =>
    rcases h.loop with hnil | ⟨hrun, -⟩
    · exact .inr ⟨hr, (script, 0), by rw [hstack, runs_cons_run, hbelow, hnil]⟩
    · exact absurd (hidle.symm.trans hrun) Bool.false_ne_true
  | read hstack _ hr _ hruns _ =>
    obtain ⟨hrun, hnil⟩ := hbusy hstack
    rw [hnil] at hruns
    exact .inr ⟨hr.trans hrun, _, hruns⟩
  | closed hstack _ _ _ hbelow _ =>
    rw [hbelow]
    exact .inl (hbusy hstack).2

theorem spare_of_inner {f : Frame} (h : f.inner = true) (below : List Frame) :
    spare (f :: below) = spare below := by
  rw [spare, show f :: below = [f] ++ below from rfl,
    runs_of_inner (fun g hg => List.mem_singleton.mp hg ▸ h), spare]

theorem fits_tail {fs : List Frame} {f : Frame} (h : Fits (f :: fs)) : Fits fs := h.2

/-- A frame that has been replaced by a smaller task. -/
theorem Handover.stack {f : Frame} {push below : List Frame} (h : Handover f push)
    (hin : f.inner = true) (hfit : Fits (f :: below)) :
    Fits (push ++ below) ∧ stackBudget (push ++ below) < stackBudget (f :: below) := by
  refine ⟨fits_push h.inner ?_ hfit.2, ?_⟩
  · have hroom := hfit.1
    have hpush := h.room
    rw [spare_of_inner hin] at hroom
    omega
  · have hlt := h.budget (available below)
    rw [stackBudget_push h.inner, stackBudget]
    omega

/-- A loop of `run` over what called it, when there is none. -/
theorem opened_stack {sh : Shell} {argv : List Arg} {script : OpenScript} {below : List Frame}
    (hne : argv ≠ []) (hlen : script.bodyLen ≤ scriptBodyMax) (hnil : runs below = [])
    (hfit : Fits (.dispatch sh argv :: below)) :
    Fits (.runNext sh script 0 :: .handled :: below) ∧
      stackBudget (.runNext sh script 0 :: .handled :: below) < stackBudget
      (.dispatch sh argv :: below) := by
  have hpos : 0 < argv.length := List.length_pos_iff.mpr hne
  obtain ⟨hroom, hbelow⟩ := hfit
  have hspare : ∀ f : Frame, f.inner = true → spare (f :: below) = 8 := by
    intro f hf
    rw [spare_of_inner hf, spare, if_pos hnil]
  have hact : activations (.handled :: below) = activations below + 1 := List.count_cons_self
  have hloop : spare (.runNext sh script 0 :: .handled :: below) = 0 :=
    if_neg (List.cons_ne_nil _ _)
  rw [hspare _ rfl] at hroom
  have hargs : activations below + (argv.length + 1) / 2 + 8 ≤ 16 := hroom
  refine ⟨⟨?_, ?_, hbelow⟩, ?_⟩
  · rw [hact, hloop]
    show activations below + 1 + 8 + 0 ≤ 16
    omega
  · rw [hspare _ rfl]
    show activations below + 1 + 8 ≤ 16
    omega
  · -- the whole script fits into what the call had left
    have havail : available below = scriptBudget := if_pos hnil
    have hmono : argvBudget scriptBudget 1 ≤ argvBudget scriptBudget argv.length :=
      argvBudget_mono scriptBudget hpos
    have hbody := Nat.mul_le_mul_right scriptLineBudget hlen
    have hscript : (script.bodyLen - 0) * scriptLineBudget + 1 ≤ scriptBudget :=
      Nat.succ_le_succ hbody
    rw [argvBudget] at hmono
    show (script.bodyLen - 0) * scriptLineBudget + 1 + (1 + stackBudget below) <
      argvBudget (available below) argv.length + stackBudget below
    rw [havail]
    omega

theorem runNext_inner (sh : Shell) (script : OpenScript) (off : Nat) (fw : Fw) :
    ∀ f ∈ (runNext sh script off fw).push, f.inner = true ∨ f.run.isSome := by
  unfold runNext
  split
  · dsimp only
    split
    · exact fun f hf => List.mem_singleton.mp hf ▸ .inr rfl
    · intro f hf
      rcases List.mem_append.mp hf with hf | hf
      · exact .inl (dispatchLine_inner _ _ _ f hf)
      · exact List.mem_singleton.mp hf ▸ .inr rfl
  · exact fun _ hf => absurd hf List.not_mem_nil

/-- A turn of the loop of `run`. -/
theorem runNext_stack {sh : Shell} {script : OpenScript} {off : Nat} {below : List Frame} (fw : Fw)
    (hfit : Fits (.runNext sh script off :: below)) :
    Fits ((runNext sh script off fw).push ++ below) ∧
      stackBudget ((runNext sh script off fw).push ++ below) <
        stackBudget (.runNext sh script off :: below) := by
  unfold runNext
  split
  · next hoff =>
    have hgt : off < runAdvance (script.text fw.flash.image) off :=
      runAdvance_gt (by rw [text_length]; exact hoff)
    dsimp only
    generalize runAdvance (script.text fw.flash.image) off = off' at hgt
    -- the loop, gone on
    have hfit' : Fits (.runNext sh script off' :: below) := hfit
    have hlines : (script.bodyLen - off') * scriptLineBudget + scriptLineBudget ≤
        (script.bodyLen - off) * scriptLineBudget := by
      rw [← Nat.succ_mul]
      exact Nat.mul_le_mul_right _ (by omega)
    split
    · refine ⟨hfit', Nat.add_lt_add_right (Nat.succ_lt_succ ?_) _⟩
      exact Nat.lt_of_lt_of_le (Nat.lt_add_of_pos_right (Nat.succ_pos _)) hlines
    · have hroom : activations (.runNext sh script off' :: below) + 8 +
          spare (.runNext sh script off' :: below) ≤ maxNesting := hfit.1
      obtain ⟨hsum, hline⟩ := dispatchLine_fits sh
        (Buffer.ofString cliLineMax (runLine (script.text fw.flash.image) off)) fw hroom hfit'
      dsimp only
      rw [List.append_assoc, List.singleton_append]
      refine ⟨hline, ?_⟩
      have havail : available (.runNext sh script off' :: below) = 0 :=
        if_neg (List.cons_ne_nil _ _)
      have hargv := hsum 0
      have hone : scriptLineBudget = argvBudget 0 cliMaxArgs + 1 := rfl
      rw [stackBudget_push (dispatchLine_inner _ _ _), havail]
      show _ + ((script.bodyLen - off') * scriptLineBudget + 1 + stackBudget below) <
        (script.bodyLen - off) * scriptLineBudget + 1 + stackBudget below
      omega
  · refine ⟨fits_tail hfit, ?_⟩
    show stackBudget below < (script.bodyLen - off) * scriptLineBudget + 1 + stackBudget below
    omega

/-- A frame of a command runs: a smaller task is left, or a loop begins. -/
theorem tick_handover {t : Tick} {f : Frame} {fw : Fw} {rc : Int} {r : Ran}
    (hrun : runFrame t f fw rc = some r) (hin : f.inner = true) :
    Handover f r.push ∨ ∃ sh argv script, f = .dispatch sh argv ∧ argv ≠ [] ∧ fw.running = false ∧
      script.bodyLen ≤ scriptBodyMax ∧ r.push = [.runNext sh script 0, .handled] := by
  unfold runFrame at hrun
  cases f with
  | dispatch sh argv =>
    rw [← Option.some.inj hrun]
    rcases dispatch_handover t sh argv fw with h | ⟨hne, hidle, script, hlen, hpush⟩
    · exact .inl h
    · exact .inr ⟨sh, argv, script, rfl, hne, hidle, hlen, hpush⟩
  | handled => rw [← Option.some.inj hrun]; exact .inl (handover_nil fun s => Nat.one_pos)
  | repeatNext sh sub i n =>
    rw [← Option.some.inj hrun]; exact .inl (repeatNext_handover sh sub i n fw)
  | repeatCheck sh sub i n =>
    rw [← Option.some.inj hrun]; exact .inl (repeatCheck_handover sh sub i n rc fw)
  | whileNext sh cond body i =>
    rw [← Option.some.inj hrun]; exact .inl (whileNext_handover sh cond body i fw)
  | whileCond sh cond body i =>
    rw [← Option.some.inj hrun]; exact .inl (whileCond_handover sh cond body i rc fw)
  | whileBody sh cond body i =>
    rw [← Option.some.inj hrun]; exact .inl (whileBody_handover sh cond body i rc fw)
  | ifCond sh thenArgv elseArgv =>
    rw [← Option.some.inj hrun]
    exact .inl (ifCond_handover sh thenArgv elseArgv rc fw)
  | fetch name => exact absurd hrun (by simp)
  | leaf sh argv => exact absurd hrun (by simp)
  | feed sh data packet => exact absurd hin Bool.false_ne_true
  | lineDone sh => exact absurd hin Bool.false_ne_true
  | runNext sh script off => exact absurd hin Bool.false_ne_true

/-- What is above line assembly stays above it. -/
theorem tick_inner {t : Tick} {f : Frame} {fw : Fw} {rc : Int} {r : Ran}
    (hrun : runFrame t f fw rc = some r) (hf : f.inner = true ∨ f.run.isSome) :
    ∀ g ∈ r.push, g.inner = true ∨ g.run.isSome := by
  rcases hf with hin | hloop
  · intro g hg
    rcases tick_handover hrun hin with h | ⟨sh, argv, script, -, -, -, -, hpush⟩
    · exact .inl (h.inner g hg)
    · rw [hpush] at hg
      simp only [List.mem_cons, List.not_mem_nil, or_false] at hg
      rcases hg with rfl | rfl
      · exact .inr rfl
      · exact .inl rfl
  · cases f with
    | runNext sh script off =>
      rw [runFrame] at hrun
      rw [← Option.some.inj hrun]
      exact runNext_inner sh script off fw
    | _ => exact absurd hloop (by simp [Frame.run])

/-- The frame of a tick, over the frames below: N1 counts down, and N2 is kept. -/
theorem tick_stack {t : Tick} {f : Frame} {below : List Frame} {fw : Fw} {rc : Int} {r : Ran}
    (hrun : runFrame t f fw rc = some r) (hf : f.inner = true ∨ f.run.isSome)
    (hfit : Fits (f :: below)) (hloop : fw.running = false → runs below = []) :
    Fits (r.push ++ below) ∧ stackBudget (r.push ++ below) < stackBudget (f :: below) := by
  rcases hf with hin | hrun'
  · rcases tick_handover hrun hin with h | ⟨sh, argv, script, rfl, hne, hidle, hlen, hpush⟩
    · exact h.stack hin hfit
    · rw [hpush]
      exact opened_stack hne hlen (hloop hidle) hfit
  · cases f with
    | runNext sh script off =>
      rw [runFrame] at hrun
      rw [← Option.some.inj hrun]
      exact runNext_stack fw hfit
    | _ => exact absurd hrun' (by simp [Frame.run])

/-- What is counted of a step. -/
def Event.cost (e : Event) : Nat := if e.advances then 1 else 0

/-- **A step of the command line** takes from what is left. -/
theorem nested_step {m m' : Machine} {e : Event} (h : Nested m) (ho : e.own = true)
    (hs : m.step e = some m') :
    Nested m' ∧ stackBudget m'.stack + e.cost ≤ stackBudget m.stack := by
  have hloop := h.loop_step hs
  cases step_cases hs with
  | @tick t f below r hstack hrun =>
    obtain ⟨hin, hfits, hone⟩ := h
    rw [hstack] at hin hfits hone ⊢
    have hbelow : m.fw.running = false → runs below = [] := by
      intro hidle
      rcases hone with hnil | ⟨hbusy, -⟩
      · rw [show f :: below = [f] ++ below from rfl, runs_append] at hnil
        exact (List.append_eq_nil_iff.mp hnil).2
      · exact absurd (hidle.symm.trans hbusy) Bool.false_ne_true
    obtain ⟨hfits', hlt⟩ := tick_stack hrun (hin f List.mem_cons_self) hfits hbelow
    refine ⟨⟨fun g hg => ?_, hfits', hloop⟩, hlt⟩
    rcases List.mem_append.mp hg with hg | hg
    · exact tick_inner hrun (hin f List.mem_cons_self) g hg
    · exact hin g (List.mem_cons_of_mem _ hg)
  | chunk _ _ => exact ⟨⟨h.inner, h.fits, hloop⟩, Nat.le_refl _⟩
  | @httpDone t ok name below hstack hok =>
    obtain ⟨hin, hfits, -⟩ := h
    rw [hstack] at hin hfits ⊢
    obtain ⟨flash, rc, hdone⟩ := fetchDone_fw t ok name m.fw
    rw [hdone] at hloop ⊢
    refine ⟨⟨fun g hg => hin g (List.mem_cons_of_mem _ hg), hfits.2, hloop⟩, ?_⟩
    show stackBudget below + 1 ≤ 1 + stackBudget below
    omega
  | httpGet hstack => exact ⟨h, Nat.le_refl _⟩
  | @leafDone rc sh argv below hstack =>
    obtain ⟨hin, hfits, -⟩ := h
    rw [hstack] at hin hfits ⊢
    refine ⟨⟨fun g hg => hin g (List.mem_cons_of_mem _ hg), hfits.2, hloop⟩, ?_⟩
    show stackBudget below + 1 ≤ 1 + stackBudget below
    omega
  | elsewhere _ => exact ⟨⟨h.inner, h.fits, hloop⟩, Nat.le_refl _⟩
  | _ => exact absurd ho (by simp [Event.own])

theorem nested_runs {m m' : Machine} {as : List Event} (h : Nested m)
    (hr : machine.Runs (fun _ e => e.own = true) m as m') :
    Nested m' ∧ stackBudget m'.stack + (as.filter Event.advances).length ≤ stackBudget m.stack := by
  induction hr with
  | nil => exact ⟨h, Nat.le_refl _⟩
  | @cons s s' s'' e as ho hs _ ih =>
    obtain ⟨hnext, hlt⟩ := nested_step h ho hs
    obtain ⟨hlast, hle⟩ := ih hnext
    refine ⟨hlast, ?_⟩
    unfold Event.cost at hlt
    rw [List.filter_cons]
    split at hlt
    · next hadv =>
      rw [if_pos hadv, List.length_cons]
      omega
    · next hadv =>
      rw [if_neg hadv]
      omega

/-- Something in progress can always go on. -/
theorem Nested.advances {m : Machine} (hne : m.stack ≠ []) :
    ∃ e, e.own = true ∧ e.advances = true ∧ (m.step e).isSome := by
  obtain ⟨f, below, hstack⟩ := List.exists_cons_of_ne_nil hne
  have htick : ∀ r, runFrame calm f m.fw m.rc = some r → (m.step (.tick calm)).isSome := by
    intro r hr
    simp [Machine.step, hstack, hr]
  cases f with
  | fetch name =>
    -- `http_get` can fail
    refine ⟨.httpDone calm false, rfl, rfl, ?_⟩
    simp [Machine.step, Machine.polls, Machine.interrupt, Machine.wake, hstack, Frame.waits]
  | leaf sh argv =>
    refine ⟨.leafDone cliOk, rfl, rfl, ?_⟩
    simp [Machine.step, Machine.polls, Machine.interrupt, Machine.wake, hstack, Frame.waits]
  | _ => exact ⟨.tick calm, rfl, rfl, htick _ rfl⟩

/-- The call of `cli_dispatch_line`, whatever the line, the scripts and the variables. -/
theorem nested_init {n : Nat} (sh : Shell) (line : Buffer n) (fw : Fw) :
    Nested ((cliDispatchLine sh line fw).resume []) ∧
      stackBudget ((cliDispatchLine sh line fw).resume []).stack ≤ lineBudget := by
  have hin := dispatchLine_inner sh line fw
  obtain ⟨hsum, hfits⟩ :=
    dispatchLine_fits sh line fw
      (show activations [] + 8 + spare [] ≤ maxNesting from Nat.le_refl 16) trivial
  have hnil : runs (cliDispatchLine sh line fw).push = [] :=
    List.filterMap_eq_nil_iff.mpr fun f hf => run_of_inner (hin f hf)
  rw [Ran.resume, List.append_nil] at *
  refine ⟨⟨fun f hf => .inl (hin f hf), hfits, .inl hnil⟩, ?_⟩
  have hbudget := stackBudget_push hin []
  rw [List.append_nil] at hbudget
  dsimp only
  rw [hbudget]
  exact hsum scriptBudget

/-- **Dispatch terminates with bounded nesting.** However commands are nested, a command line
takes at most `lineBudget` steps and returns of commands, at most sixteen handlers are active
at any time, and until it is through it can go on. -/
theorem dispatch_terminates {n : Nat} {sh : Shell} {line : Buffer n} {fw : Fw}
    {as : List Event} {m : Machine}
    (h : machine.Runs (fun _ e => e.own = true) ((cliDispatchLine sh line fw).resume []) as m) :
    (as.filter Event.advances).length ≤ lineBudget ∧ activations m.stack ≤ maxNesting ∧
      (m.stack ≠ [] → ∃ e, e.own = true ∧ e.advances = true ∧ (m.step e).isSome) := by
  obtain ⟨hinit, hbudget⟩ := nested_init sh line fw
  obtain ⟨hnested, hle⟩ := nested_runs hinit h
  exact ⟨by omega, hnested.fits.activations_le, Nested.advances⟩

/-- `repeat 2 sleep 1s`, with the returns of `sleep`. -/
def repeating : List Event :=
  [.tick calm, .tick calm, .tick calm, .leafDone cliOk, .tick calm, .tick calm,
    .tick calm, .tick calm,
   .leafDone cliOk, .tick calm, .tick calm, .tick calm, .tick calm]

theorem repeating_terminates :
    ∃ m, LTS.exec Machine.step (fun _ e => e.own = true)
        ((cliDispatchLine .ble (Buffer.ofString cliLineMax (CString.ascii "repeat 2 sleep 1s"))
          (Fw.boot erased)).resume []) repeating = some m ∧
      (repeating.filter Event.advances).length ≤ lineBudget ∧ activations m.stack ≤ maxNesting ∧
      (m.stack ≠ [] → ∃ e, e.own = true ∧ e.advances = true ∧ (m.step e).isSome) := by
  obtain ⟨m, hm⟩ := Option.isSome_iff_exists.mp
    (show (LTS.exec Machine.step (fun _ e => e.own = true)
        ((cliDispatchLine .ble (Buffer.ofString cliLineMax (CString.ascii "repeat 2 sleep 1s"))
          (Fw.boot erased)).resume []) repeating).isSome = true by decide +kernel)
  exact ⟨m, hm, dispatch_terminates (LTS.runs_exec hm)⟩

end PicoBLE.Cli
