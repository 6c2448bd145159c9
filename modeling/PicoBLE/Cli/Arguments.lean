import PicoBLE.Cli.ArgBuffer

/-!
# What a command is dispatched with again

`repeat`, `while` and `if` keep pointers into `g_expand_buf` and pass them to
`cli_dispatch_argv` after other commands have run. Every argument remembers
the string that the expansion of its line put there, and it is still that
string when it is dispatched, in every run in which nothing is written to an
argument that still has to be.
-/

namespace PicoBLE.Cli

open CString (ascii)

/-- What `cli_dispatch_argv` is called with is what its line was expanded to. -/
def ArgsStable (m : Machine) : Prop :=
  ∀ sh argv below, m.stack = .dispatch sh argv :: below → argv.map m.fw.str = argv.map Arg.text

/-- No expansion reaches an argument that is still to be dispatched, and no `set NAME=VALUE`
cuts one. -/
def ArgsKept (m : Machine) (e : Event) : Prop := ∀ a ∈ pending (m.waiting e), ArgSafe m e a

instance (m : Machine) (e : Event) : Decidable (ArgsKept m e) :=
  inferInstanceAs (Decidable (∀ a ∈ _, _))

/-- Everything that is still to be dispatched is as it was expanded. -/
def ArgsInv (m : Machine) : Prop := ∀ a ∈ pending m.stack, m.fw.str a = a.text

theorem ArgsInv.stable {m : Machine} (h : ArgsInv m) : ArgsStable m := by
  intro sh argv below hstack
  refine List.map_congr_left fun a ha => h a ?_
  rw [hstack]
  exact List.mem_append_left _ ha

theorem argsInv_step {m m' : Machine} {e : Event} (h : ArgsInv m) (hk : ArgsKept m e)
    (hs : m.step e = some m') : ArgsInv m' := by
  -- what waits was to be dispatched before
  have hwaiting : pending (m.waiting e) ⊆ pending m.stack := by
    cases e with
    | tick t =>
      intro a ha
      obtain ⟨f, hf, hfa⟩ := List.mem_flatMap.mp ha
      exact List.mem_flatMap.mpr ⟨f, List.mem_of_mem_tail hf, hfa⟩
    | _ => exact List.Subset.refl _
  have hold : ∀ a ∈ pending (m.waiting e), m'.fw.str a = a.text := by
    intro a ha
    rw [step_str hs (hk a ha)]
    exact h a (hwaiting ha)
  cases bufStep_of_step hs with
  | same hbuf hargs =>
    intro a ha
    rw [Fw.str, hbuf]
    exact h a (hargs ha)
  | line hline hbuf hargs =>
    intro a ha
    rcases hargs a ha with ha | ha
    · exact hold a ha
    · rw [Fw.str, hbuf]
      exact expandArgv_text ha
  | split hsplit hbuf hargs => exact fun a ha => hold a (hargs ha)

/-- **A command that is dispatched again gets the same arguments**, as long as nothing is
written to them in between. -/
theorem arguments_stable {m : Machine} (h : machine.ReachableWhen ArgsKept m) : ArgsStable m := by
  have hinv : ArgsInv m := by
    refine h.inv ?_ fun _ _ _ hinv hk hs => argsInv_step hinv hk hs
    rintro _ ⟨flash, rfl⟩ a ha
    exact absurd ha (by simp [pending, Machine.boot])
  exact hinv.stable

/-! ## An assignment in a loop -/

/-- A line over BLE, and some ticks. -/
def typed (line : String) (ticks : Nat) : List Event :=
  [.linkUp, .subscribe, .rx (ascii line)] ++ List.replicate ticks (.tick calm)

/-- What is about to be dispatched, and what it was expanded to. -/
def Machine.dispatching (m : Machine) : Option (List (List UInt8) × List (List UInt8)) :=
  match m.stack with
  | .dispatch _ argv :: _ => some (argv.map m.fw.str, argv.map Arg.text)
  | _ => none

/-- `repeat 2 set A 1`, at the second call of `set`: nothing has been written. -/
theorem repeatSet_stable :
    ∃ m, LTS.exec Machine.step ArgsKept (Machine.boot erased)
        (typed "repeat 2 set A 1" 24) = some m ∧
      ArgsStable m := by
  obtain ⟨m, hm⟩ := Option.isSome_iff_exists.mp
    (show (LTS.exec Machine.step ArgsKept (Machine.boot erased)
      (typed "repeat 2 set A 1" 24)).isSome = true by decide +kernel)
  exact ⟨m, hm, arguments_stable ((LTS.runs_exec hm).reachableWhen (.init ⟨erased, rfl⟩))⟩

/-- `repeat 2 set A=1`: the second call gets `A`. -/
theorem repeatSet_cut : ∃ m, machine.Reachable m ∧ ¬ ArgsStable m ∧
    m.dispatching = some ([ascii "set", ascii "A"], [ascii "set", ascii "A=1"]) := by
  have hrun : (LTS.exec Machine.step (fun _ _ => True) (Machine.boot erased)
      (typed "repeat 2 set A=1" 24)).map Machine.dispatching
      = some (some ([ascii "set", ascii "A"], [ascii "set", ascii "A=1"])) := by decide +kernel
  obtain ⟨m, hm, hview⟩ := Option.map_eq_some_iff.mp hrun
  refine ⟨m, (LTS.runs_exec hm).reachableWhen (.init ⟨erased, rfl⟩), fun hstable => ?_, hview⟩
  unfold Machine.dispatching at hview
  split at hview
  · next argv below hstack =>
    obtain ⟨hnow, hthen⟩ := Prod.mk.inj (Option.some.inj hview)
    have heq := hstable _ argv below hstack
    rw [hnow, hthen] at heq
    exact absurd heq (by decide)
  · exact absurd hview (by simp)

end PicoBLE.Cli
