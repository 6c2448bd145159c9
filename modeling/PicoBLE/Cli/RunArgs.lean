import PicoBLE.Cli.ShellSteps

/-!
# The arguments of a script

`run` hands its arguments to `shell_push_args`, which has room for ten strings of 63
characters, the script's name among them. What does not fit is cut off, and
`run` is not told. So the script sees the arguments it was given if they fit.

The arguments that `run` was called with are recorded beside the machine. The
frame is pushed when the loop begins and popped when it ends, and nothing
writes to it in between.
-/

namespace PicoBLE.Cli

/-- The machine, and what the script in progress was given: its name and the user's arguments. -/
structure ArgWorld where
  m : Machine
  args : List (List UInt8)

def ArgWorld.next (w : ArgWorld) (e : Event) : Option ArgWorld :=
  (w.m.step e).map fun m' => { m := m', args := w.m.argsAfter m' w.args }

def argWorlds : LTS ArgWorld Event :=
  LTS.ofFun (fun w => ∃ flash, w = { m := Machine.boot flash, args := [] }) ArgWorld.next

theorem held_args {w : ArgWorld} (h : argWorlds.Reachable w) : Held w.args w.m := by
  refine LTS.ReachableWhen.inv (P := fun w => Held w.args w.m) h (fun w hi => ?_)
    fun w e w' hheld _ hs => ?_
  · obtain ⟨flash, rfl⟩ := hi
    exact .idle rfl rfl rfl rfl
  · obtain ⟨m', hstep, rfl⟩ := Option.map_eq_some_iff.mp hs
    exact hheld.step hstep

/-- What a script is to see of its name and arguments. -/
structure Faithful (args : List (List UInt8)) (shell : ShellState) : Prop where
  /-- `$0` -/
  name : shellExpand 48 shell = some (args.getD 0 [])
  /-- `$1` to `$9`, empty beyond the last. -/
  arg : ∀ i, 1 ≤ i → i ≤ 9 → shellExpand (UInt8.ofNat (48 + i)) shell = some (args.getD i [])
  /-- `$#` leaves out the name. -/
  count : shellExpand 35 shell = some (CString.itoa (args.length - 1 : Nat))

/-- `shell_push_args` has room for them. -/
def ArgsFit (args : List (List UInt8)) : Prop :=
  args.length ≤ shellMaxArgs ∧ ∀ a ∈ args, a.length ≤ shellArgMaxLen

theorem pushedArgs_getD (args : List (List UInt8)) {i : Nat} (hi : i < shellMaxArgs) :
    (pushedArgs args).getD i [] = (args.getD i []).take shellArgMaxLen := by
  rw [pushedArgs, List.getD_eq_getElem?_getD, List.getElem?_map, List.getElem?_take_of_lt hi,
    List.getD_eq_getElem?_getD]
  cases args[i]? with
  | none => rfl
  | some a => rfl

theorem pushedArgs_length (args : List (List UInt8)) :
    (pushedArgs args).length = min shellMaxArgs args.length := by
  rw [pushedArgs, List.length_map, List.length_take]

/-- What fits is pushed as it is. -/
theorem pushedArgs_of_fit {args : List (List UInt8)} (h : ArgsFit args) :
    pushedArgs args = args := by
  rw [pushedArgs, List.take_of_length_le h.1]
  exact (List.map_congr_left fun a ha => List.take_of_length_le (h.2 a ha)).trans
    (List.map_id' args)

section Top

variable {args : List (List UInt8)} {shell : ShellState}

/-- A digit is a position in the frame. -/
theorem shellExpand_digit (hf : shell.frames = [pushedArgs args]) {i : Nat} (hi : i ≤ 9) :
    shellExpand (UInt8.ofNat (48 + i)) shell = some ((args.getD i []).take shellArgMaxLen) := by
  have hnat : (UInt8.ofNat (48 + i)).toNat = 48 + i := by
    rw [UInt8.toNat_ofNat']
    omega
  have hrange : 48 ≤ UInt8.ofNat (48 + i) ∧ UInt8.ofNat (48 + i) ≤ 57 := by
    rw [UInt8.le_iff_toNat_le, UInt8.le_iff_toNat_le, hnat]
    exact ⟨Nat.le_add_right 48 i, Nat.add_le_add_left hi 48⟩
  unfold shellExpand
  dsimp only
  rw [if_pos hrange, hf, List.headD_cons, hnat, Nat.add_sub_cancel_left,
    pushedArgs_getD args (Nat.lt_succ_of_le hi)]

theorem shellExpand_count (hf : shell.frames = [pushedArgs args]) :
    shellExpand 35 shell = some (CString.itoa (min shellMaxArgs args.length - 1 : Nat)) := by
  unfold shellExpand
  dsimp only
  rw [if_neg (by decide), if_pos rfl, hf, List.headD_cons, pushedArgs_length]

/-- `$#` counts up to nine. -/
theorem Faithful.length_le (h : Faithful args shell) (hf : shell.frames = [pushedArgs args]) :
    args.length ≤ shellMaxArgs := by
  have hcount := Option.some.inj ((shellExpand_count hf).symm.trans h.count)
  have hnat := congrArg CString.decimal hcount
  rw [CString.decimal_itoa, CString.decimal_itoa] at hnat
  have hmax : shellMaxArgs = 10 := rfl
  omega

theorem Faithful.getD (h : Faithful args shell) {i : Nat} (hi : i ≤ 9) :
    shellExpand (UInt8.ofNat (48 + i)) shell = some (args.getD i []) := by
  rcases Nat.eq_zero_or_pos i with rfl | hpos
  · exact h.name
  · exact h.arg i hpos hi

/-- **A frame shows the arguments it was pushed for if they fit.** -/
theorem faithful_iff (hf : shell.frames = [pushedArgs args]) : Faithful args shell ↔
    ArgsFit args := by
  refine ⟨fun h => ⟨h.length_le hf, fun a ha => ?_⟩, fun hfit => ⟨?_, fun i _ hi => ?_, ?_⟩⟩
  · obtain ⟨i, hi, rfl⟩ := List.getElem_of_mem ha
    have hi9 : i ≤ 9 := Nat.le_of_lt_succ (Nat.lt_of_lt_of_le hi (h.length_le hf))
    have hcut := Option.some.inj ((shellExpand_digit hf hi9).symm.trans (h.getD hi9))
    rw [List.getD_eq_getElem _ _ hi] at hcut
    rw [← hcut, List.length_take]
    exact Nat.min_le_left _ _
  · rw [pushedArgs_of_fit hfit] at hf
    unfold shellExpand
    rw [hf]
    rfl
  · have hget : (args.getD i []).take shellArgMaxLen = args.getD i [] := by
      refine List.take_of_length_le ?_
      by_cases hlen : i < args.length
      · rw [List.getD_eq_getElem _ _ hlen]
        exact hfit.2 _ (List.getElem_mem hlen)
      · rw [List.getD_eq_default _ _ (Nat.le_of_not_lt hlen)]
        exact Nat.zero_le _
    rw [shellExpand_digit hf hi, hget]
  · rw [shellExpand_count hf, Nat.min_eq_right hfit.1]

end Top

/-- **A script sees the arguments it was given exactly if there are at most nine of them, of at
most 63 characters each.** -/
theorem run_args {w : ArgWorld} (h : argWorlds.Reachable w) (hrun : runs w.m.stack ≠ []) :
    Faithful w.args w.m.fw.shell ↔ ArgsFit w.args := by
  cases held_args h with
  | idle _ _ hl _ => exact absurd hl hrun
  | busy _ _ _ hf => exact faithful_iff hf

/-- `run lamp` with some arguments, over BLE, up to the loop. -/
def runLampWith (args : String) : List Event :=
  [.linkUp, .subscribe, .rx (CString.ascii ("run lamp" ++ args))] ++
    List.replicate (args.length + 11) (.tick calm)

theorem runLampWith_two : ∃ w, argWorlds.Reachable w ∧ w.args = [CString.ascii "lamp", [53], [54]] ∧
    (Faithful w.args w.m.fw.shell ↔ ArgsFit w.args) := by
  have hend : (LTS.exec ArgWorld.next (fun _ _ => True) { m := Machine.boot lampFlash, args := [] }
      (runLampWith " 5 6")).map (fun w => (w.args, decide (runs w.m.stack = [])))
      = some ([CString.ascii "lamp", [53], [54]], false) := by decide +kernel
  obtain ⟨w, hw, hview⟩ := Option.map_eq_some_iff.mp hend
  obtain ⟨hargs, hrun⟩ := Prod.mk.inj hview
  have hreach : argWorlds.Reachable w := (LTS.runs_exec hw).reachableWhen (.init ⟨lampFlash, rfl⟩)
  exact ⟨w, hreach, hargs, run_args hreach (of_decide_eq_false hrun)⟩

/-- With ten arguments the script counts nine. -/
theorem runLampWith_ten : ∃ w, argWorlds.Reachable w ∧ runs w.m.stack ≠ [] ∧ w.args.length = 11 ∧
    ¬ Faithful w.args w.m.fw.shell := by
  have hend : (LTS.exec ArgWorld.next (fun _ _ => True) { m := Machine.boot lampFlash, args := [] }
      (runLampWith " 1 2 3 4 5 6 7 8 9 10")).map
        (fun w => (w.args.length, decide (runs w.m.stack = []), shellExpand 35 w.m.fw.shell))
      = some (11, false, some [57]) := by decide +kernel
  obtain ⟨w, hw, hview⟩ := Option.map_eq_some_iff.mp hend
  obtain ⟨hlen, hview⟩ := Prod.mk.inj hview
  obtain ⟨hrun, hcount⟩ := Prod.mk.inj hview
  refine ⟨w, (LTS.runs_exec hw).reachableWhen (.init ⟨lampFlash, rfl⟩),
    of_decide_eq_false hrun, hlen, fun hfaith => ?_⟩
  have hten := hcount.symm.trans hfaith.count
  rw [hlen] at hten
  exact absurd hten (by decide)

end PicoBLE.Cli
