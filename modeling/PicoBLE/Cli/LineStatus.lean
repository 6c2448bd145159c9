import PicoBLE.Cli.ShellSteps

/-!
# `$?` behind a line

`cli_dispatch_argv` sets the status behind the handler it has called, so however
many calls the handler makes in turn, the outermost comes last. A name that is no
command sets it as well. But `cli_dispatch_line` has two more ways out, for a
line that cannot be tokenized and for one that cannot be expanded, and these
leave the status of the line before.

A call of `cli_dispatch_line` is a run of the machine up to the first time that
the frames below it are all there are.
-/

namespace PicoBLE.Cli

/-- `shell_get_status` is what has been returned, and so `$?` is. -/
def Reports (m : Machine) : Prop :=
  m.fw.shell.status = m.rc ∧ shellExpand 63 m.fw.shell = some (CString.itoa m.rc)

theorem reports_iff {m : Machine} : Reports m ↔ m.fw.shell.status = m.rc := by
  refine ⟨And.left, fun h => ⟨h, ?_⟩⟩
  rw [← h]
  rfl

/-- The line comes to a call of `cli_dispatch_argv`. -/
def Dispatches {n : Nat} (line : Buffer n) (fw : Fw) : Prop :=
  ∃ toks, lineTokens line = .ok toks ∧ (expandArgv fw.vars fw.shell toks fw.expandBuf).2.2 ≠ none

/-- The steps of a call above some frames. -/
def Above (below : List Frame) (m : Machine) (_ : Event) : Prop := below.length < m.stack.length

instance (below : List Frame) (m : Machine) (e : Event) : Decidable (Above below m e) :=
  inferInstanceAs (Decidable (_ < _))

/-! ## A call of `cli_dispatch_argv` -/

/-- Where it can be. -/
inductive OnCall (below : List Frame) (m : Machine) : Prop where
  | calling {sh : Shell} {a : Arg} {args : List Arg}
      (hstack : m.stack = .dispatch sh (a :: args) :: below)
  /-- In the handler, and all that this calls. -/
  | within {above : List Frame} (hstack : m.stack = above ++ .handled :: below)
  | returned (hstack : m.stack = below) (hstatus : m.fw.shell.status = m.rc)

/-- What is below the innermost frame stays there. -/
theorem step_below {m m' : Machine} {e : Event} (hs : m.step e = some m') {f : Frame}
    {below : List Frame} (hstack : m.stack = f :: below) : ∃ push, m'.stack = push ++ below := by
  have hback : ∀ {g : Frame} {rest : List Frame}, m.stack = g :: rest → rest = below := by
    intro g rest h
    exact (List.cons.inj (h.symm.trans hstack)).2
  cases step_cases hs with
  | @tick t g rest r h _ => exact ⟨r.push, congrArg (r.push ++ ·) (hback h)⟩
  | linkUp => exact ⟨[f], hstack⟩
  | subscribe _ => exact ⟨[f], hstack⟩
  | linkDown => exact ⟨[f], hstack⟩
  | @rx data _ => exact ⟨[.feed .ble data true, f], congrArg (_ :: ·) hstack⟩
  | @usb b _ => exact ⟨[.feed .usb [b] false, f], congrArg (_ :: ·) hstack⟩
  | @usbFirst b _ => exact ⟨[.feed .usb [b] false, f], congrArg (_ :: ·) hstack⟩
  | @fire target _ =>
    refine ⟨(cliDispatchLine .bg (Buffer.ofString (PicoBLE.System.bindTargetMax + 1) target)
      m.fw).push ++ [f], ?_⟩
    rw [Ran.resume, hstack, List.append_assoc]
    rfl
  | chunk _ _ => exact ⟨[f], hstack⟩
  | chunkBelow _ _ _ => exact ⟨[f], hstack⟩
  | httpDone h _ => exact ⟨_, congrArg (_ ++ ·) (hback h)⟩
  | httpGet _ => exact ⟨[f], hstack⟩
  | leafDone h => exact ⟨[], hback h⟩
  | elsewhere _ => exact ⟨[f], hstack⟩

/-- **Every step of the call keeps it there**, until it returns. -/
theorem OnCall.step {below : List Frame} {m m' : Machine} {e : Event} (h : OnCall below m)
    (ha : Above below m e) (hs : m.step e = some m') : OnCall below m' := by
  cases h with
  | @calling sh a args hstack =>
    obtain ⟨t, r, hrun, rfl⟩ := step_runs hs hstack rfl
    obtain rfl := Option.some.inj hrun
    unfold cliDispatchArgv
    dsimp only
    cases cliCommandFind (m.fw.str a) with
    | none => exact .returned rfl rfl
    | some h =>
      refine @OnCall.within below _ (callHandler t sh (a :: args) m.fw h).push ?_
      show (_ ++ [Frame.handled]) ++ below = _
      rw [List.append_assoc]
      rfl
  | @within above hstack =>
    cases above with
    | nil =>
      -- the handler has returned, and its value is the status
      obtain ⟨t, r, hrun, rfl⟩ := step_runs hs hstack rfl
      obtain rfl := Option.some.inj hrun
      exact .returned rfl rfl
    | cons f above =>
      obtain ⟨push, hpush⟩ := step_below hs hstack
      exact @OnCall.within below _ (push ++ above) (hpush.trans (List.append_assoc ..).symm)
  | returned hstack _ =>
    rw [Above, hstack] at ha
    exact absurd ha (Nat.lt_irrefl _)

theorem OnCall.runs {below : List Frame} {m m' : Machine} {events : List Event} (h : OnCall below m)
    (hrun : machine.Runs (Above below) m events m') : OnCall below m' := by
  induction hrun with
  | nil => exact h
  | cons ha hstep _ ih => exact ih (h.step ha hstep)

/-- When it has returned, the status is what it returned. -/
theorem OnCall.status {below : List Frame} {m : Machine} (h : OnCall below m)
    (hret : m.stack = below) :
    m.fw.shell.status = m.rc := by
  have hlen := congrArg List.length hret
  cases h with
  | calling hstack =>
    rw [hstack, List.length_cons] at hlen
    omega
  | within hstack =>
    rw [hstack, List.length_append, List.length_cons] at hlen
    omega
  | returned _ hstatus => exact hstatus

/-! ## A call of `cli_dispatch_line` -/

/-- The ways out in front of the expansion. -/
theorem lineTokens_error {n : Nat} {line : Buffer n} {rc : Int} (h : lineTokens line = .error rc) :
    rc = 0 ∨ rc = cliErrArg := by
  unfold lineTokens at h
  split at h
  · exact .inl (Except.error.inj h).symm
  · split at h
    · exact .inr (Except.error.inj h).symm
    · exact .inl (Except.error.inj h).symm
    · exact absurd h (by simp)

theorem lineTokens_ne_nil {n : Nat} {line : Buffer n} {toks : List (List UInt8)}
    (h : lineTokens line = .ok toks) : toks ≠ [] := by
  unfold lineTokens at h
  split at h
  · exact absurd h (by simp)
  · split at h
    · exact absurd h (by simp)
    · exact absurd h (by simp)
    · next hne _ =>
      obtain rfl := Except.ok.inj h
      rintro rfl
      exact hne rfl

/-- A call that returns at once. -/
theorem runs_returned {below : List Frame} {fw : Fw} {rc : Int} {events : List Event} {m : Machine}
    (h : machine.Runs (Above below) ((fw.ret rc).resume below) events m) :
    m = (fw.ret rc).resume below := by
  cases h with
  | nil => rfl
  | cons ha _ _ => exact absurd ha (Nat.lt_irrefl _)

/-- A line that is dispatched reports what it returns. -/
theorem dispatches_status {n : Nat} {sh : Shell} {line : Buffer n} {fw : Fw} {below : List Frame}
    {events : List Event} {m : Machine} (h : Dispatches line fw)
    (hrun : machine.Runs (Above below) ((cliDispatchLine sh line fw).resume below) events m)
    (hret : m.stack = below) : m.fw.shell.status = m.rc := by
  obtain ⟨toks, htoks, hexp⟩ := h
  rcases dispatchLine_cases sh line fw with
    ⟨rc, herr, -⟩ | ⟨toks', buf, off, htoks', ⟨hno, -⟩ | ⟨argv, he, hline⟩⟩
  · exact absurd (htoks.symm.trans herr) (by simp)
  · obtain rfl := Except.ok.inj (htoks.symm.trans htoks')
    rw [hno] at hexp
    exact absurd rfl hexp
  · obtain rfl := Except.ok.inj (htoks.symm.trans htoks')
    rw [hline] at hrun
    have hlen := expandFrom_length (congrArg (fun r => r.2.2) he)
    cases argv with
    | nil => exact absurd (List.length_eq_zero_iff.mp hlen.symm) (lineTokens_ne_nil htoks)
    | cons a args => exact ((OnCall.calling rfl).runs hrun).status hret

/-- A line that is not does not. -/
theorem not_dispatches_status {n : Nat} {sh : Shell} {line : Buffer n} {fw : Fw}
    {below : List Frame} {events : List Event} {m : Machine} (hline : lineTokens line ≠ .error 0)
    (h : ¬ Dispatches line fw)
    (hrun : machine.Runs (Above below) ((cliDispatchLine sh line fw).resume below) events m) :
    m.fw.shell.status = fw.shell.status ∧ m.rc = cliErrArg := by
  rcases dispatchLine_cases sh line fw with
    ⟨rc, herr, he⟩ | ⟨toks, buf, off, htoks, ⟨-, he⟩ | ⟨argv, hexp, -⟩⟩
  · rw [he] at hrun
    obtain rfl := runs_returned hrun
    rcases lineTokens_error herr with rfl | rfl
    · exact absurd herr hline
    · exact ⟨rfl, rfl⟩
  · rw [he] at hrun
    obtain rfl := runs_returned hrun
    exact ⟨rfl, rfl⟩
  · exact absurd ⟨toks, htoks, by rw [hexp]; simp⟩ h

/-- **`$?` is what the line returned exactly if the line could be tokenized and expanded**, or if
the line before returned the same error. -/
theorem line_status {n : Nat} {sh : Shell} {line : Buffer n} {fw : Fw} {below : List Frame}
    {events : List Event} {m : Machine} (hline : lineTokens line ≠ .error 0)
    (hrun : machine.Runs (Above below) ((cliDispatchLine sh line fw).resume below) events m)
    (hret : m.stack = below) : Reports m ↔ Dispatches line fw ∨ fw.shell.status = cliErrArg := by
  rw [reports_iff]
  by_cases hd : Dispatches line fw
  · exact ⟨fun _ => .inl hd, fun _ => dispatches_status hd hrun hret⟩
  · obtain ⟨hstatus, hrc⟩ := not_dispatches_status hline hd hrun
    rw [hstatus, hrc]
    exact ⟨.inr, fun h => h.resolve_left hd⟩

/-- The line, as the buffer of a shell holds it. -/
def keyed (line : String) : Buffer cliLineMax := Buffer.ofString cliLineMax (CString.ascii line)

theorem lampless_status : ∃ m, m.stack = [] ∧ m.rc = cliErrArg ∧
    (Reports m ↔ Dispatches (keyed "run lamp") (Fw.boot erased) ∨
      (Fw.boot erased).shell.status = cliErrArg) := by
  have hend : (LTS.exec Machine.step (Above [])
      ((cliDispatchLine .usb (keyed "run lamp") (Fw.boot erased)).resume [])
      (List.replicate 2 (.tick calm))).map (fun m => (m.stack, m.rc)) = some ([], cliErrArg) := by
        decide +kernel
  obtain ⟨m, hm, hview⟩ := Option.map_eq_some_iff.mp hend
  obtain ⟨hstack, hrc⟩ := Prod.mk.inj hview
  have htoks : lineTokens (keyed "run lamp") = .ok [CString.ascii "run", CString.ascii "lamp"] := by
    decide +kernel
  exact ⟨m, hstack, hrc, line_status (by rw [htoks]; simp) (LTS.runs_exec hm) hstack⟩

/-- A quote that is not closed. -/
theorem unclosed_status : ∃ m, lineTokens (keyed "echo \"lamp") ≠ .error 0 ∧
    machine.Runs (Above [])
      ((cliDispatchLine .usb (keyed "echo \"lamp") (Fw.boot erased)).resume []) [] m ∧
    m.stack = [] ∧ m.rc = cliErrArg ∧ ¬ Reports m := by
  have htoks : lineTokens (keyed "echo \"lamp") = .error cliErrArg := by decide +kernel
  refine ⟨((Fw.boot erased).ret cliErrArg).resume [], ?_, ?_, rfl, rfl, ?_⟩
  · rw [htoks]
    decide
  · rw [cliDispatchLine, htoks]
    exact .nil _
  · rw [reports_iff]
    decide

end PicoBLE.Cli
