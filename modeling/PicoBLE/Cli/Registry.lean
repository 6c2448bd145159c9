import Mathlib.Data.List.Sort
import PicoBLE.Cli.Commands
import PicoBLE.Lib.LinkedList

/-!
# `cli/command.c`: the registry

Each command is a static record, and a constructor of its own registers it
before `main`, in an order the linker chooses. `cli_command_register` inserts
it where its name belongs, so what has been registered is what an insertion
sort makes of it, and there is one sorted list of commands whose names differ.
-/

namespace PicoBLE.Cli.Registry

open CString (strcmp ascii)

variable {κ : Type} (name : κ → Option (List UInt8))

/-- The name of a command that has one. -/
def text (c : κ) : List UInt8 := (name c).getD []

/-- `g_head`, and `_next` of each command, before the constructors run. -/
def atStart : Links κ := { head := none, next := fun _ => none }

/-- `cli_command_register`, `none` when the steps of its loop run out. -/
def cliCommandRegister [DecidableEq κ] (fuel : Nat) (cmd : Option κ) (r : Links κ) :
    Option (Links κ) :=
  match cmd with
  | none => some r
  | some c =>
    match name c with
    | none => some r
    | some n =>
      (r.findSlot (fun d => strcmp (text name d) n = .lt) fuel .head).map fun slot => r.link c slot

/-- `cli_command_find`, `none` when the steps of its loop run out. -/
def cliCommandFind (fuel : Nat) (n : Option (List UInt8)) (r : Links κ) : Option (Option κ) :=
  match n with
  | none => some none
  | some n => r.find (fun c => strcmp (text name c) n = .eq) fuel r.head

/-- `cli_command_iter`. -/
def cliCommandIter (prev : Option κ) (r : Links κ) : Option κ :=
  match prev with
  | none => r.head
  | some c => r.next c

/-- The constructors, in some order. -/
def registerAll [DecidableEq κ] (fuel : Nat) : List κ → Links κ → Option (Links κ)
  | [], r => some r
  | c :: cs, r => (cliCommandRegister name fuel (some c) r).bind (registerAll fuel cs)

/-- What a loop over `cli_command_iter` sees from here on. -/
inductive Seen (r : Links κ) : Option κ → List κ → Prop where
  | done {prev : Option κ} : cliCommandIter prev r = none → Seen r prev []
  | more {prev : Option κ} {c : κ} {l : List κ} : cliCommandIter prev r = some c →
      Seen r (some c) l → Seen r prev (c :: l)

/-- The iteration sees the list. -/
theorem seen_iff {r : Links κ} {prev : Option κ} {l : List κ} :
    Seen r prev l ↔ Links.Chain r.next (cliCommandIter prev r) l := by
  constructor
  · intro h
    induction h with
    | done h => rw [h]; exact .nil
    | more h _ ih => rw [h]; exact .cons ih
  · intro h
    induction l generalizing prev with
    | nil =>
      refine .done ?_
      generalize cliCommandIter prev r = p at h
      cases h
      rfl
    | cons c l ih =>
      generalize hp : cliCommandIter prev r = p at h
      cases h with
      | cons h => exact .more hp (ih h)

/-! ## The order of the names -/

/-- The name of `a` is not behind that of `b`. -/
def NotAfter (a b : κ) : Prop := strcmp (text name a) (text name b) ≠ .gt

instance : DecidableRel (NotAfter name) := fun _ _ => inferInstanceAs (Decidable (_ ≠ _))

/-- What the loop of `cli_command_register` asks. -/
theorem not_notAfter (c d : κ) : ¬ NotAfter name c d ↔
    strcmp (text name d) (text name c) = .lt := by
  rw [NotAfter, not_not, CString.strcmp_swap]
  cases strcmp (text name d) (text name c) <;> decide

instance : Std.Total (NotAfter name) where
  total a b := by
    by_cases h : NotAfter name a b
    · exact .inl h
    · refine .inr ?_
      rw [NotAfter, (not_notAfter name a b).mp h]
      decide

instance : IsTrans κ (NotAfter name) where
  trans a b c hab hbc := by
    by_contra hac
    have hca := (not_notAfter name a c).mp hac
    -- behind `a` or like it, `b` is behind `c` too
    have hcb : strcmp (text name c) (text name b) = .lt := by
      cases h : strcmp (text name a) (text name b) with
      | lt => exact CString.strcmp_trans hca h
      | eq => rw [← CString.strcmp_eq_iff.mp h]; exact hca
      | gt => exact absurd h hab
    exact hbc (by rw [CString.strcmp_swap, hcb]; rfl)

theorem notAfter_antisymm {a b : κ} (hab : NotAfter name a b) (hba : NotAfter name b a) :
    text name a = text name b := by
  refine CString.strcmp_eq_iff.mp ?_
  unfold NotAfter at hab hba
  rw [CString.strcmp_swap] at hba
  cases h : strcmp (text name a) (text name b) with
  | lt => rw [h] at hba; exact absurd rfl hba
  | eq => rfl
  | gt => exact absurd h hab

theorem notAfter_strict {a b : κ} (h : NotAfter name a b) (hne : text name a ≠ text name b) :
    strcmp (text name a) (text name b) = .lt := by
  cases hc : strcmp (text name a) (text name b) with
  | lt => rfl
  | eq => exact absurd (CString.strcmp_eq_iff.mp hc) hne
  | gt => exact absurd hc h

theorem foldl_orderedInsert (cs : List κ) :
    cs.foldl (fun l c => l.orderedInsert (NotAfter name) c) [] =
      cs.reverse.insertionSort (NotAfter name) := by
  rw [List.insertionSort, List.foldr_reverse]

/-- Commands whose names differ are sorted in one way. -/
theorem insertionSort_unique {cs order : List κ} (hperm : order.Perm cs)
    (hdistinct : ∀ a ∈ cs, ∀ b ∈ cs, text name a = text name b → a = b) :
    order.reverse.insertionSort (NotAfter name) = cs.insertionSort (NotAfter name) := by
  have hsorted := (List.perm_insertionSort (NotAfter name) order.reverse).trans
    ((List.reverse_perm order).trans hperm)
  refine List.Perm.eq_of_pairwise (fun a b ha hb hab hba => ?_) (List.pairwise_insertionSort _ _)
    (List.pairwise_insertionSort _ _) (hsorted.trans (List.perm_insertionSort _ cs).symm)
  exact hdistinct a (hsorted.mem_iff.mp ha) b ((List.mem_insertionSort _).mp hb)
    (notAfter_antisymm name hab hba)

/-- Then the order is strict. -/
theorem insertionSort_strict {cs : List κ} (hcs : cs.Nodup)
    (hdistinct : ∀ a ∈ cs, ∀ b ∈ cs, text name a = text name b → a = b) :
    (cs.insertionSort (NotAfter name)).Pairwise fun a b => strcmp (text name a) (text name b) =
      .lt := by
  have hperm := List.perm_insertionSort (NotAfter name) cs
  have hboth := (List.pairwise_insertionSort (NotAfter name) cs).and (hperm.nodup_iff.mpr hcs)
  refine hboth.imp_of_mem fun {a b} ha hb hab => notAfter_strict name hab.1 fun heq => hab.2 ?_
  exact hdistinct a (hperm.mem_iff.mp ha) b (hperm.mem_iff.mp hb) heq

/-! ## Registration -/

section Registration

variable [DecidableEq κ]

/-- **A command is inserted** where its name belongs. -/
theorem cliCommandRegister_holds {r : Links κ} {l : List κ} {c : κ} {fuel : Nat} (h : r.Holds l)
    (hnodup : l.Nodup) (hc : c ∉ l) (hname : name c ≠ none) (hfuel : l.length < fuel) :
    ∃ r', cliCommandRegister name fuel (some c) r = some r' ∧
    r'.Holds (l.orderedInsert (NotAfter name) c) := by
  obtain ⟨n, hn⟩ := Option.ne_none_iff_exists'.mp hname
  obtain ⟨slot, hslot, hholds⟩ :=
    @Links.Holds.insert κ _ (fun d => strcmp (text name d) n = .lt) r c l fuel h hnodup hc hfuel
  have htext : text name c = n := by rw [text, hn]; rfl
  have hbefore : (fun d => decide (¬ NotAfter name c d)) = fun d =>
      decide (strcmp (text name d) n = .lt) := by
    funext d
    rw [decide_eq_decide, not_notAfter, htext]
  refine ⟨r.link c slot, ?_, ?_⟩
  · rw [cliCommandRegister, hn]
    dsimp only
    rw [hslot]
    rfl
  · rw [List.orderedInsert_eq_take_drop, hbefore]
    exact hholds

/-- **The constructors sort** what they register. -/
theorem registerAll_holds {r : Links κ} {l cs : List κ} {fuel : Nat} (h : r.Holds l)
    (hnodup : (l ++ cs).Nodup) (hnamed : ∀ c ∈ cs, name c ≠ none)
    (hfuel : (l ++ cs).length ≤ fuel) :
    ∃ r', registerAll name fuel cs r = some r' ∧
      r'.Holds (cs.foldl (fun l c => l.orderedInsert (NotAfter name) c) l) := by
  induction cs generalizing r l with
  | nil => exact ⟨r, rfl, h⟩
  | cons c cs ih =>
    obtain ⟨hl, -, hdisjoint⟩ := List.nodup_append.mp hnodup
    have hc : c ∉ l := fun hmem => hdisjoint c hmem c List.mem_cons_self rfl
    have hlen : l.length < fuel := by
      rw [List.length_append, List.length_cons] at hfuel
      omega
    obtain ⟨r', hr', hholds⟩ :=
      cliCommandRegister_holds name h hl hc (hnamed c List.mem_cons_self) hlen
    have hperm : (l.orderedInsert (NotAfter name) c ++ cs).Perm (l ++ c :: cs) :=
      ((List.perm_orderedInsert _ c l).append_right cs).trans List.perm_middle.symm
    obtain ⟨r'', hr'', hholds'⟩ := ih hholds (hperm.nodup_iff.mpr hnodup)
      (fun d hd => hnamed d (List.mem_cons_of_mem _ hd)) (by rw [hperm.length_eq]; exact hfuel)
    exact ⟨r'', by rw [registerAll, hr']; exact hr'', hholds'⟩

/-- **After the constructors** the registry is sorted, and a name is found if one of the commands
has it. -/
theorem registered {cs order : List κ} {fuel : Nat} (hnamed : ∀ c ∈ cs, name c = some (text name c))
    (hdistinct : ∀ a ∈ cs, ∀ b ∈ cs, text name a = text name b → a = b) (hcs : cs.Nodup)
    (horder : order.Perm cs) (hfuel : cs.length < fuel) :
    ∃ r, registerAll name fuel order atStart = some r ∧ r.Holds (cs.insertionSort (NotAfter name)) ∧
      (∀ c ∈ cs, cliCommandFind name fuel (name c) r = some (some c)) ∧
      ∀ n, (∀ c ∈ cs, name c ≠ some n) → cliCommandFind name fuel (some n) r = some none := by
  have hperm := List.perm_insertionSort (NotAfter name) cs
  obtain ⟨r, hr, hholds⟩ :=
    @registerAll_holds κ name _ atStart [] order fuel .nil (horder.nodup_iff.mpr hcs)
    (fun c hc => by rw [hnamed c (horder.mem_iff.mp hc)]; simp)
    (by rw [List.nil_append, horder.length_eq]; exact Nat.le_of_lt hfuel)
  rw [foldl_orderedInsert, insertionSort_unique name horder hdistinct] at hholds
  have hfind : ∀ n, cliCommandFind name fuel (some n) r =
      some ((cs.insertionSort (NotAfter name)).find? fun c => strcmp (text name c) n = .eq) :=
    fun n => hholds.find _ (by rw [List.length_insertionSort]; exact hfuel)
  have hfound : ∀ {n c},
      (cs.insertionSort (NotAfter name)).find? (fun c => strcmp (text name c) n = .eq) = some c →
      c ∈ cs ∧ text name c = n := by
    intro n c hc
    have heq : strcmp (text name c) n = .eq := by simpa using List.find?_some hc
    exact ⟨hperm.mem_iff.mp (List.mem_of_find?_eq_some hc), CString.strcmp_eq_iff.mp heq⟩
  refine ⟨r, hr, hholds, fun c hc => ?_, fun n hn => ?_⟩
  · rw [hnamed c hc, hfind]
    cases hf : (cs.insertionSort (NotAfter name)).find? fun d =>
        strcmp (text name d) (text name c) = .eq with
    | none =>
      have hno := List.find?_eq_none.mp hf c (hperm.mem_iff.mpr hc)
      exact absurd (decide_eq_true (CString.strcmp_self _)) hno
    | some d =>
      obtain ⟨hd, heq⟩ := hfound hf
      rw [hdistinct d hd c hc heq]
  · rw [hfind]
    cases hf : (cs.insertionSort (NotAfter name)).find? fun d => strcmp (text name d) n = .eq with
    | none => rfl
    | some d =>
      obtain ⟨hd, heq⟩ := hfound hf
      exact absurd (by rw [hnamed d hd, heq]) (hn d hd)

/-- **The registry does not depend on the order of the constructors.** For commands whose names
differ there is one list, strictly increasing, with each of them once, and after the constructors,
in whichever order, it is what the iteration sees, and every name is found that one of them has, and
no other. -/
theorem registry_sorted {cs : List κ} (hnamed : ∀ c ∈ cs, name c ≠ none)
    (hdistinct : (cs.map name).Nodup) :
    ∃ l, l.Perm cs ∧ l.Nodup ∧ l.Pairwise (fun a b => strcmp (text name a) (text name b) = .lt) ∧
      ∀ order, order.Perm cs → ∀ fuel, cs.length < fuel →
        ∃ r, registerAll name fuel order atStart = some r ∧ Seen r none l ∧
        (∀ l', Seen r none l' → l' = l) ∧
          (∀ c ∈ cs, cliCommandFind name fuel (name c) r = some (some c)) ∧
          ∀ n, (∀ c ∈ cs, name c ≠ some n) → cliCommandFind name fuel (some n) r = some none := by
  have hsome : ∀ c ∈ cs, name c = some (text name c) := by
    intro c hc
    obtain ⟨n, hn⟩ := Option.ne_none_iff_exists'.mp (hnamed c hc)
    rw [text, hn]
    rfl
  have hinj : ∀ a ∈ cs, ∀ b ∈ cs, text name a = text name b → a = b := by
    intro a ha b hb heq
    exact List.inj_on_of_nodup_map hdistinct ha hb (by rw [hsome a ha, hsome b hb, heq])
  have hcs : cs.Nodup := hdistinct.of_map
  have hperm := List.perm_insertionSort (NotAfter name) cs
  refine ⟨_, hperm, hperm.nodup_iff.mpr hcs, insertionSort_strict name hcs hinj,
    fun order horder fuel hfuel => ?_⟩
  obtain ⟨r, hr, hholds, hfind⟩ := registered name hsome hinj hcs horder hfuel
  exact ⟨r, hr, seen_iff.mpr hholds, fun l' hl' => (seen_iff.mp hl').unique hholds, hfind⟩

end Registration

/-- Three commands. -/
def three (c : Fin 3) : Option (List UInt8) := some (ascii (["run", "adc", "led"].get c))

theorem three_sorted : ∃ l : List (Fin 3), l.Perm [0, 1, 2] ∧
    l.Pairwise (fun a b => strcmp (text three a) (text three b) = .lt) ∧
    ∀ order : List (Fin 3), order.Perm [0, 1, 2] → ∃ r, registerAll three 4 order atStart = some r ∧
    Seen r none l := by
  obtain ⟨l, hperm, -, hsorted, hall⟩ :=
    @registry_sorted (Fin 3) three _ [0, 1, 2] (by decide) (by decide)
  refine ⟨l, hperm, hsorted, fun order horder => ?_⟩
  obtain ⟨r, hr, hseen, -⟩ := hall order horder 4 (by decide)
  exact ⟨r, hr, hseen⟩

/-! ## The commands of the firmware -/

/-- Their names. -/
def commandName (c : Fin commands.length) : Option (List UInt8) := some (ascii (commands.get c).1)

/-- **Whichever order they register in**, the shell finds its commands. -/
theorem commands_registered {order : List (Fin commands.length)}
    (h : order.Perm (List.finRange commands.length)) :
    ∃ r, registerAll commandName (commands.length + 1) order atStart = some r ∧
      ∀ n, (cliCommandFind commandName (commands.length + 1) (some n) r).map (Option.map fun c =>
        (commands.get c).2)
        = some (Cli.cliCommandFind n) := by
  have hinj : ∀ a ∈ List.finRange commands.length, ∀ b ∈ List.finRange commands.length,
      text commandName a = text commandName b → a = b := by decide +kernel
  obtain ⟨r, hr, -, hfound, hmissing⟩ := registered commandName (fun c _ => rfl) hinj
    (List.nodup_finRange _) h (by rw [List.length_finRange]; exact Nat.lt_succ_self _)
  refine ⟨r, hr, fun n => ?_⟩
  unfold Cli.cliCommandFind
  cases hf : commands.find? fun c => ascii c.1 = n with
  | some x =>
    obtain ⟨i, hi, rfl⟩ := List.getElem_of_mem (List.mem_of_find?_eq_some hf)
    have hname : ascii commands[i].1 = n := by simpa using List.find?_some hf
    have hc := hfound ⟨i, hi⟩ (List.mem_finRange _)
    rw [show commandName ⟨i, hi⟩ = some n from congrArg some hname] at hc
    rw [hc]
    rfl
  | none =>
    rw [hmissing n fun c _ heq => ?_]
    · rfl
    · have hno := List.find?_eq_none.mp hf _ (List.get_mem commands c)
      exact hno (decide_eq_true (Option.some.inj heq))

end PicoBLE.Cli.Registry
