import PicoBLE.Cli.Calls
import PicoBLE.Cli.Nesting
import PicoBLE.Cli.PlainLine
import PicoBLE.Cli.Store

/-!
# The language of the shell

A command line is a word list, and four of the commands take others as their
arguments. So the words are a program, of loops, branches and scripts, and what
it does can be said without the C stack, without `g_expand_buf` and without
pointers into it: in terms of the variables, the positional arguments, the
status and the flash. What the machine does with a line is this, as long as no
command writes to `g_expand_buf` whose words are needed again.

A command that only looks at the hardware or prints may return anything, and
while it waits something else may write to the flash, outside the scripts.
-/

namespace PicoBLE.Cli

open CallStack
open CString (ascii)
open PicoBLE.Ota (Flash)
open PicoBLE.Storage
open PicoBLE.System (VarTable varsSet varsUnset)

/-! ## Programs -/

/-- What the words of a command come to. -/
inductive Cmd where
  /-- No words. -/
  | nothing
  /-- It returns an error and does nothing. -/
  | refused (rc : Int)
  /-- A command that looks at the hardware or prints. -/
  | leaf
  | set (args : List (List UInt8))
  | unset (names : List (List UInt8))
  | repeated (n : Nat) (body : Cmd)
  | whileDo (cond body : Cmd)
  | ifElse (cond thenCmd elseCmd : Cmd)
  | run (args : List (List UInt8))
  | script (args : List (List UInt8))

/-- The words in front of the first that is a given one, and those behind it. -/
def splitWord (word : String) (words : List (List UInt8)) :
    Option (List (List UInt8) × List (List UInt8)) :=
  (words.findIdx? (· = ascii word)).map fun i => (words.take i, words.drop (i + 1))

theorem splitWord_length {word : String} {words before after : List (List UInt8)}
    (h : splitWord word words = some (before, after)) :
    before.length + after.length + 1 = words.length := by
  obtain ⟨i, hi, heq⟩ := Option.map_eq_some_iff.mp h
  obtain ⟨rfl, rfl⟩ := Prod.mk.inj heq
  obtain ⟨hlt, -⟩ := List.findIdx?_eq_some_iff_getElem.mp hi
  rw [List.length_take, List.length_drop]
  omega

/-- What stands behind `then`, with and without an `else`. -/
def splitElse (words : List (List UInt8)) : List (List UInt8) × List (List UInt8) :=
  (splitWord "else" words).getD (words, [])

theorem splitElse_length (words : List (List UInt8)) :
    (splitElse words).1.length ≤ words.length ∧ (splitElse words).2.length ≤ words.length := by
  unfold splitElse
  cases h : splitWord "else" words with
  | none => exact ⟨Nat.le_refl _, Nat.zero_le _⟩
  | some parts =>
    have hlen := splitWord_length h
    rw [Option.getD_some]
    omega

/-- The count and the command of `repeat`, or the error that it returns. -/
def readRepeat (args : List (List UInt8)) : Except Int (Nat × List (List UInt8)) :=
  match args with
  | count :: a :: sub =>
    let (n, rest) := CString.strtol count
    if rest ≠ [] ∨ n ≤ 0 ∨ n > 100000 then .error cliErrArg else .ok (n.toNat, a :: sub)
  | _ => .error cliErrUsage

/-- The condition and the body of `while`. -/
def readWhile (args : List (List UInt8)) : Except Int (List (List UInt8) × List (List UInt8)) :=
  match splitWord "do" args with
  | none => .error cliErrUsage
  | some (cond, body) => if cond = [] ∨ body = [] then .error cliErrUsage else .ok (cond, body)

/-- The condition of `if`, and its two branches. -/
def readIf (args : List (List UInt8)) :
    Except Int (List (List UInt8) × List (List UInt8) × List (List UInt8)) :=
  match splitWord "then" args with
  | none => .error cliErrUsage
  | some (cond, after) =>
    if cond = [] ∨ (splitElse after).1 = [] then .error cliErrUsage else .ok (cond, splitElse after)

theorem readRepeat_length {args sub : List (List UInt8)} {n : Nat}
    (h : readRepeat args = .ok (n, sub)) :
    sub.length ≤ args.length := by
  unfold readRepeat at h
  split at h
  · dsimp only at h
    split at h
    · exact absurd h (by simp)
    · obtain ⟨-, rfl⟩ := Prod.mk.inj (Except.ok.inj h)
      exact Nat.le_succ _
  · exact absurd h (by simp)

theorem readWhile_length {args cond body : List (List UInt8)}
    (h : readWhile args = .ok (cond, body)) :
    cond.length ≤ args.length ∧ body.length ≤ args.length := by
  unfold readWhile at h
  split at h
  · exact absurd h (by simp)
  · next cond' body' hsplit =>
    have hlen := splitWord_length hsplit
    split at h
    · exact absurd h (by simp)
    · obtain ⟨rfl, rfl⟩ := Prod.mk.inj (Except.ok.inj h)
      omega

theorem readIf_length {args cond thenWords elseWords : List (List UInt8)}
    (h : readIf args = .ok (cond, thenWords, elseWords)) :
    cond.length ≤ args.length ∧ thenWords.length ≤ args.length ∧
    elseWords.length ≤ args.length := by
  unfold readIf at h
  split at h
  · exact absurd h (by simp)
  · next cond' after hsplit =>
    have hlen := splitWord_length hsplit
    have helse := splitElse_length after
    split at h
    · exact absurd h (by simp)
    · obtain ⟨rfl, hbranches⟩ := Prod.mk.inj (Except.ok.inj h)
      rw [hbranches] at helse
      dsimp only at helse
      omega

/-- **The grammar**: the first `do`, `then` and `else` count, and the parts are read the same
way. -/
def parse (words : List (List UInt8)) : Cmd :=
  match words with
  | [] => .nothing
  | name :: args =>
    match cliCommandFind name with
    | none => .refused cliErrArg
    | some .leaf => .leaf
    | some .cmdSet => .set args
    | some .cmdUnset => .unset args
    | some .cmdRun => .run args
    | some .cmdScript => .script args
    | some .cmdRepeat =>
      match h : readRepeat args with
      | .error e => .refused e
      | .ok (n, sub) => have := readRepeat_length h; .repeated n (parse sub)
    | some .cmdWhile =>
      match h : readWhile args with
      | .error e => .refused e
      | .ok (cond, body) => have := readWhile_length h; .whileDo (parse cond) (parse body)
    | some .cmdIf =>
      match h : readIf args with
      | .error e => .refused e
      | .ok (cond, thenWords, elseWords) =>
        have := readIf_length h
        .ifElse (parse cond) (parse thenWords) (parse elseWords)
termination_by words.length

section Grammar

variable {name : List UInt8} {args : List (List UInt8)}

theorem parse_repeat (hfind : cliCommandFind name = some .cmdRepeat) : parse (name :: args) =
    match readRepeat args with
    | .error e => .refused e
    | .ok (n, sub) => .repeated n (parse sub) := by
  rw [parse, hfind]
  dsimp only
  split
  · next h => rw [h]
  · next h => rw [h]

theorem parse_while (hfind : cliCommandFind name = some .cmdWhile) : parse (name :: args) =
    match readWhile args with
    | .error e => .refused e
    | .ok (cond, body) => .whileDo (parse cond) (parse body) := by
  rw [parse, hfind]
  dsimp only
  split
  · next h => rw [h]
  · next h => rw [h]

theorem parse_if (hfind : cliCommandFind name = some .cmdIf) : parse (name :: args) =
    match readIf args with
    | .error e => .refused e
    | .ok (cond, thenWords, elseWords) =>
      .ifElse (parse cond) (parse thenWords) (parse elseWords) := by
  rw [parse, hfind]
  dsimp only
  split
  · next h => rw [h]
  · next h => rw [h]

end Grammar

/-! ## What they mean -/

/-- What a command works on. -/
structure Store where
  vars : VarTable
  shell : ShellState
  flash : Flash

def Store.setStatus (rc : Int) (st : Store) : Store :=
  { st with shell := { st.shell with status := rc } }

/-- What `set` does, and returns. -/
def setVars (args : List (List UInt8)) (vars : VarTable) : VarTable × Int :=
  let assign (name value : List UInt8) : VarTable × Int :=
    match varsSet name value vars with
    | none => (vars, cliErrArg)
    | some vars => (vars, cliOk)
  match args with
  | [] => (vars, cliOk)
  | [a] =>
    if 61 ∈ a then assign (a.take (a.idxOf 61)) (a.drop (a.idxOf 61 + 1)) else (vars, cliErrUsage)
  | name :: value :: _ => assign name value

/-- What `unset` does, and returns. -/
def unsetVars (names : List (List UInt8)) (vars : VarTable) : VarTable × Int :=
  if names = [] then (vars, cliErrUsage)
  else (names.foldl (fun vars name => (varsUnset name vars).getD vars) vars, cliOk)

/-- What a handler does, and then the status. -/
def WithStatus (does : Store → Int → Store → Prop) (st : Store) (rc : Int) (st' : Store) : Prop :=
  ∃ m, does st rc m ∧ st' = m.setStatus rc

/-- **What a program does**, where `runs` is what `run` does. -/
def Cmd.Does (runs : List (List UInt8) → Store → Int → Store → Prop) : Cmd → Store → Int →
    Store → Prop
  | .nothing => fun st rc st' => rc = cliOk ∧ st' = st
  | .refused e => fun st rc st' => rc = e ∧ st' = st.setStatus rc
  | .leaf => fun st rc st' => ∃ flash, SameScripts st.flash flash ∧
    st' = { st with flash := flash }.setStatus rc
  | .set args => fun st rc st' =>
    rc = (setVars args st.vars).2 ∧ st' = { st with vars := (setVars args st.vars).1 }.setStatus rc
  | .unset names => fun st rc st' =>
    rc = (unsetVars names st.vars).2 ∧
    st' = { st with vars := (unsetVars names st.vars).1 }.setStatus rc
  | .repeated n body => WithStatus (Loop (repeatTurn (body.Does runs)) cliOk n)
  | .whileDo cond body =>
    WithStatus (Loop (whileTurn (cond.Does runs) (body.Does runs)) cliErrHardware whileMaxIter)
  | .ifElse cond thenCmd elseCmd =>
    WithStatus (Branches (cond.Does runs) (thenCmd.Does runs) (elseCmd.Does runs))
  | .run args => WithStatus (runs args)
  -- it works on the scripts and on the capture
  | .script _ => fun _ _ _ => False

/-- It writes nothing to `g_expand_buf`, and nothing to the scripts. -/
def Cmd.Steady : Cmd → Prop
  | .nothing => True
  | .refused _ => True
  | .leaf => True
  -- `set NAME=VALUE` cuts its argument in two
  | .set args => ∀ a, args = [a] → 61 ∉ a
  | .unset _ => True
  | .repeated _ body => body.Steady
  | .whileDo cond body => cond.Steady ∧ body.Steady
  | .ifElse cond thenCmd elseCmd => cond.Steady ∧ thenCmd.Steady ∧ elseCmd.Steady
  | .run _ => False
  | .script _ => False

/-- What is called before something else is steady, and `script` is not called. -/
def Cmd.Ok : Cmd → Prop
  | .set _ => True
  | .run _ => True
  | .ifElse cond thenCmd elseCmd => cond.Steady ∧ thenCmd.Ok ∧ elseCmd.Ok
  | c => c.Steady

theorem Cmd.Steady.ok {c : Cmd} (h : c.Steady) : c.Ok := by
  induction c with
  | set args => trivial
  | run args => trivial
  | ifElse cond thenCmd elseCmd _ ihThen ihElse => exact ⟨h.1, ihThen h.2.1, ihElse h.2.2⟩
  | _ => exact h

/-! ## The store in the firmware -/

def Fw.store (fw : Fw) : Store := { vars := fw.vars, shell := fw.shell, flash := fw.flash }

/-- Another store, and everything else as it is. -/
def Fw.put (st : Store) (fw : Fw) : Fw :=
  { fw with vars := st.vars, shell := st.shell, flash := st.flash }

theorem put_setStatus (st : Store) (rc : Int) (fw : Fw) :
    (fw.put st).setStatus rc = fw.put (st.setStatus rc) := rfl

/-- The words that arguments are. -/
def Fw.words (fw : Fw) (argv : List Arg) : List (List UInt8) := argv.map fw.str

theorem words_cons (fw : Fw) (a : Arg) (args : List Arg) :
    fw.words (a :: args) = fw.str a :: fw.words args := rfl

theorem words_eq_nil {fw : Fw} {argv : List Arg} : fw.words argv = [] ↔ argv = [] :=
  List.map_eq_nil_iff

theorem splitWord_words (fw : Fw) (word : String) (argv : List Arg) :
    splitWord word (fw.words argv) =
    (findWord fw word argv).map fun i =>
    (fw.words (argv.take i), fw.words (argv.drop (i + 1))) := by
  unfold splitWord findWord Fw.words
  rw [List.findIdx?_map]
  simp only [List.map_take, List.map_drop]
  rfl

/-! ## What the handlers read -/

section Reads

variable (sh : Shell) (name : Arg) (args : List Arg) (fw : Fw)

/-- `repeat` reads its words as the grammar does. -/
theorem repeat_reads :
    (∃ e, readRepeat (fw.words args) = .error e ∧
      ∀ st, handleRepeat sh (name :: args) (fw.put st) = (fw.put st).ret e) ∨
    ∃ n sub, readRepeat (fw.words args) = .ok (n, fw.words sub) ∧
      ∀ st, handleRepeat sh (name :: args) (fw.put st) =
        (fw.put st).goto (.repeatNext sh sub 0 n) cliOk := by
  match args with
  | [] => exact .inl ⟨_, rfl, fun _ => rfl⟩
  | [count] => exact .inl ⟨_, rfl, fun _ => rfl⟩
  | count :: a :: sub =>
    by_cases hbad : (CString.strtol (fw.str count)).2 ≠ [] ∨ (CString.strtol (fw.str count)).1 ≤ 0 ∨
        (CString.strtol (fw.str count)).1 > 100000
    · exact .inl ⟨_, if_pos hbad, fun _ => if_pos hbad⟩
    · exact .inr ⟨_, a :: sub, if_neg hbad, fun _ => if_neg hbad⟩

/-- A part in front of a word that is found is empty if the word comes first. -/
theorem take_found {fw : Fw} {word : String} {args : List Arg} {i : Nat}
    (h : findWord fw word args = some i) :
    fw.words (args.take i) = [] ↔ i = 0 := by
  obtain ⟨hlt, -⟩ := List.findIdx?_eq_some_iff_getElem.mp h
  rw [words_eq_nil, List.take_eq_nil_iff]
  refine ⟨fun h => h.resolve_right fun hnil => ?_, .inl⟩
  rw [hnil] at hlt
  exact absurd hlt (Nat.not_lt_zero i)

/-- Something on both sides of a word makes at least four arguments. -/
theorem four_args {i : Nat} {args : List Arg} (hi : i ≠ 0) (hrest : args.drop (i + 1) ≠ []) :
    ¬ (name :: args).length < 4 := by
  have hlen := List.length_pos_iff.mpr hrest
  rw [List.length_drop] at hlen
  rw [List.length_cons]
  omega

/-- So does `while`. -/
theorem while_reads :
    (∃ e, readWhile (fw.words args) = .error e ∧
      ∀ st, handleWhile sh (name :: args) (fw.put st) = (fw.put st).ret e) ∨
    ∃ cond body, readWhile (fw.words args) = .ok (fw.words cond, fw.words body) ∧
      ∀ st, handleWhile sh (name :: args) (fw.put st) =
        (fw.put st).goto (.whileNext sh cond body 0) cliOk := by
  have hfound : ∀ st, findWord (fw.put st) "do" args = findWord fw "do" args := fun _ => rfl
  unfold readWhile handleWhile
  rw [splitWord_words]
  simp only [List.drop_one, List.tail_cons, hfound]
  cases hfind : findWord fw "do" args with
  | none => exact .inl ⟨cliErrUsage, rfl, fun _ => ite_self _⟩
  | some i =>
    dsimp only [Option.map_some]
    by_cases hparts : i = 0 ∨ args.drop (i + 1) = []
    · have hwords : fw.words (args.take i) = [] ∨ fw.words (args.drop (i + 1)) = [] :=
        hparts.imp (take_found hfind).mpr words_eq_nil.mpr
      rw [if_pos hwords]
      refine .inl ⟨cliErrUsage, rfl, fun st => ?_⟩
      rw [if_pos hparts, ite_self]
    · obtain ⟨hi0, hrest⟩ := not_or.mp hparts
      have hwords : ¬ (fw.words (args.take i) = [] ∨ fw.words (args.drop (i + 1)) = []) :=
        not_or.mpr ⟨mt (take_found hfind).mp hi0, mt words_eq_nil.mp hrest⟩
      rw [if_neg hwords]
      refine .inr ⟨_, _, rfl, fun st => ?_⟩
      rw [if_neg hparts, if_neg (four_args name hi0 hrest)]

theorem splitElse_words (after : List Arg) :
    splitElse (fw.words after) = (fw.words (ifBranches fw after).1,
      fw.words (ifBranches fw after).2) := by
  unfold splitElse ifBranches
  rw [splitWord_words]
  cases findWord fw "else" after <;> rfl

/-- And `if`. -/
theorem if_reads :
    (∃ e, readIf (fw.words args) = .error e ∧
      ∀ st, handleIf sh (name :: args) (fw.put st) = (fw.put st).ret e) ∨
    ∃ cond thenArgv elseArgv, readIf (fw.words args) = .ok (fw.words cond, fw.words thenArgv,
      fw.words elseArgv) ∧
      ∀ st, handleIf sh (name :: args) (fw.put st) =
        { fw := fw.put st, push := [.dispatch sh cond, .ifCond sh thenArgv elseArgv],
          rc := cliOk } := by
  have hfound : ∀ st, findWord (fw.put st) "then" args = findWord fw "then" args := fun _ => rfl
  have hbranches : ∀ st after, ifBranches (fw.put st) after = ifBranches fw after := fun _ _ => rfl
  unfold readIf handleIf
  rw [splitWord_words]
  simp only [List.drop_one, List.tail_cons, hfound, hbranches]
  cases hfind : findWord fw "then" args with
  | none => exact .inl ⟨cliErrUsage, rfl, fun _ => ite_self _⟩
  | some i =>
    dsimp only [Option.map_some]
    rw [splitElse_words]
    by_cases hparts : i = 0 ∨ (ifBranches fw (args.drop (i + 1))).1 = []
    · have hwords : fw.words (args.take i) = [] ∨
          fw.words (ifBranches fw (args.drop (i + 1))).1 = [] :=
        hparts.imp (take_found hfind).mpr words_eq_nil.mpr
      rw [if_pos hwords]
      refine .inl ⟨cliErrUsage, rfl, fun st => ?_⟩
      rw [if_pos hparts, ite_self]
    · obtain ⟨hi0, hthen⟩ := not_or.mp hparts
      have hwords :
          ¬ (fw.words (args.take i) = [] ∨ fw.words (ifBranches fw (args.drop (i + 1))).1 = []) :=
        not_or.mpr ⟨mt (take_found hfind).mp hi0, mt words_eq_nil.mp hthen⟩
      have hrest : args.drop (i + 1) ≠ [] := by
        intro hnil
        rw [hnil] at hthen
        exact hthen rfl
      rw [if_neg hwords]
      refine .inr ⟨_, _, _, rfl, fun st => ?_⟩
      rw [if_neg hparts, if_neg (four_args name hi0 hrest)]

end Reads

/-! ## Commands that wait -/

/-- The command line and what it waits for, and no input. -/
abbrev Own (e : Event) : Prop := e.own = true

theorem own_tick (t : Tick) : Own (.tick t) := rfl

theorem SameScripts.trans {f g h : Flash} (hfg : SameScripts f g) (hgh : SameScripts g h) :
    SameScripts f h :=
  fun a hlt hle => (hgh a hlt hle).trans (hfg a hlt hle)

/-- A command that waits goes on waiting or returns. -/
theorem turn_leaf {sh : Shell} {argv : List Arg} {s s' : Fw × Int} {push : List Frame}
    (h : (shellCalls Own).turn (.leaf sh argv) s s' push) :
    (push = [.leaf sh argv] ∨ push = []) ∧
      ∃ flash, SameScripts s.1.flash flash ∧ s'.1 = { s.1 with flash := flash } := by
  obtain ⟨e, he, hs⟩ := h
  generalize hm : ({ fw := s'.1, stack := push, rc := s'.2 } : Machine) = m at hs
  have hfw : s'.1 = m.fw := congrArg Machine.fw hm
  have hpush : push = m.stack := congrArg Machine.stack hm
  rw [hfw, hpush]
  cases step_cases hs with
  | tick hstack hrun =>
    obtain ⟨rfl, -⟩ := List.cons.inj hstack
    exact absurd hrun (by simp [runFrame])
  | chunk hstack _ => exact absurd hstack (by simp [alone])
  | httpDone hstack _ => exact absurd hstack (by simp [alone])
  | httpGet _ => exact ⟨.inl rfl, s.1.flash, SameScripts.refl _, rfl⟩
  | leafDone hstack =>
    obtain ⟨-, rfl⟩ := List.cons.inj hstack
    exact ⟨.inr rfl, s.1.flash, SameScripts.refl _, rfl⟩
  | elsewhere hsame => exact ⟨.inl rfl, _, hsame, rfl⟩
  | _ => exact absurd he (by simp [Event.own])

/-- **What a waiting command does**: it returns something, and the flash may be another outside the
scripts. -/
theorem returns_leaf {sh : Shell} {argv : List Arg} {fw fw' : Fw} {rc₀ rc : Int} :
    (shellCalls Own).Returns [.leaf sh argv] (fw, rc₀) (fw', rc) ↔
      ∃ flash, SameScripts fw.flash flash ∧ fw' = { fw with flash := flash } := by
  constructor
  · intro h
    generalize hfs : [Frame.leaf sh argv] = fs at h
    generalize hs : (fw, rc₀) = s at h
    generalize hs' : (fw', rc) = s' at h
    induction h generalizing fw rc₀ with
    | nil => exact absurd hfs (by simp)
    | @turn f push fs s s₁ s' hturn hrest ih =>
      obtain ⟨rfl, rfl⟩ := List.cons.inj hfs
      subst hs
      obtain ⟨hpush, flash, hsame, hfw⟩ := turn_leaf hturn
      rcases hpush with rfl | rfl
      · obtain ⟨flash', hsame', rfl⟩ := @ih s₁.1 s₁.2 rfl rfl hs'
        rw [hfw] at hsame' ⊢
        exact ⟨flash', hsame.trans hsame', rfl⟩
      · obtain rfl := returns_nil.mp hrest
        subst hs'
        exact ⟨flash, hsame, hfw⟩
  · rintro ⟨flash, hsame, rfl⟩
    have hwrite : (shellCalls Own).turn (.leaf sh argv) (fw, rc₀)
        ({ fw with flash := flash }, rc₀) [.leaf sh argv] := by
      have hint : (alone (.leaf sh argv) (fw, rc₀)).interrupt (.elsewhere flash) =
          some { fw := { fw with flash := flash }, stack := [.leaf sh argv], rc := rc₀ } := by
        rw [Machine.interrupt]
        exact if_pos hsame
      refine ⟨.elsewhere flash, rfl, ?_⟩
      unfold Machine.step
      dsimp only
      rw [hint]
      rfl
    have hdone : (shellCalls Own).turn (.leaf sh argv) ({ fw with flash := flash }, rc₀)
        ({ fw with flash := flash }, rc) [] := by
      exact ⟨.leafDone rc, rfl, rfl⟩
    exact .turn hwrite (.turn hdone (.nil _))

/-! ## `set` and `unset` -/

/-- Wherever `set` finds its arguments, it does what it does to the words. -/
theorem set_reads {name : Arg} {args : List Arg} {fw : Fw}
    (hset : ∀ a, fw.words args = [a] → 61 ∉ a) :
    handleSet (name :: args) fw = Fw.ret { fw with vars := (setVars (fw.words args) fw.vars).1 }
      (setVars (fw.words args) fw.vars).2 := by
  match args with
  | [] => rfl
  | [a] =>
    have hno : 61 ∉ fw.str a := hset (fw.str a) rfl
    have hsplit : setSplit fw [name, a] = none := if_neg hno
    have hvars : setVars (fw.words [a]) fw.vars = (fw.vars, cliErrUsage) := if_neg hno
    rw [hvars]
    unfold handleSet
    dsimp only
    rw [hsplit]
  | a :: value :: rest =>
    have hvars : setVars (fw.words (a :: value :: rest)) fw.vars =
        ((varsSet (fw.str a) (fw.str value) fw.vars).map (·, cliOk)).getD (fw.vars, cliErrArg) := by
      show (match varsSet (fw.str a) (fw.str value) fw.vars with | none => _ | some vars => _) = _
      cases varsSet (fw.str a) (fw.str value) fw.vars <;> rfl
    rw [hvars]
    unfold handleSet
    dsimp only
    cases varsSet (fw.str a) (fw.str value) fw.vars <;> rfl

theorem unset_reads (name : Arg) (args : List Arg) (fw : Fw) :
    handleUnset (name :: args) fw = Fw.ret { fw with vars := (unsetVars (fw.words args) fw.vars).1 }
      (unsetVars (fw.words args) fw.vars).2 := by
  unfold handleUnset unsetVars
  cases args with
  | nil => rfl
  | cons a args =>
    rw [if_neg (by simp), if_neg (by simp [Fw.words])]
    simp only [List.drop_one, List.tail_cons, Fw.words, List.foldl_map]

/-! ## Programs that leave their arguments alone -/

section Embedding

variable {σ τ : Type} {g : τ → σ} {R S T : σ → Int → σ → Prop} {R' S' T' : τ → Int → τ → Prop}

theorem repeatTurn_embeds (h : Embeds g R R') : Embeds g (repeatTurn R) (repeatTurn R') := by
  intro t o s'
  constructor
  · rintro ⟨rc, hcall, ho⟩
    obtain ⟨t', hdoes, rfl⟩ := (h t rc s').mp hcall
    exact ⟨t', ⟨rc, hdoes, ho⟩, rfl⟩
  · rintro ⟨t', ⟨rc, hdoes, ho⟩, rfl⟩
    exact ⟨rc, (h t rc _).mpr ⟨t', hdoes, rfl⟩, ho⟩

theorem branches_embeds (hR : Embeds g R R') (hS : Embeds g S S') (hT : Embeds g T T') :
    Embeds g (Branches R S T) (Branches R' S' T') := by
  intro t rc s'
  constructor
  · rintro ⟨rc₁, s₁, hcond, hbranch⟩
    obtain ⟨t₁, hdoes, rfl⟩ := (hR t rc₁ s₁).mp hcond
    by_cases hrc : rc₁ = cliOk
    · rw [if_pos hrc] at hbranch
      obtain ⟨t', hthen, rfl⟩ := (hS t₁ rc s').mp hbranch
      exact ⟨t', ⟨rc₁, t₁, hdoes, (if_pos hrc).mpr hthen⟩, rfl⟩
    · rw [if_neg hrc] at hbranch
      obtain ⟨t', helse, rfl⟩ := (hT t₁ rc s').mp hbranch
      exact ⟨t', ⟨rc₁, t₁, hdoes, (if_neg hrc).mpr helse⟩, rfl⟩
  · rintro ⟨t', ⟨rc₁, t₁, hdoes, hbranch⟩, rfl⟩
    refine ⟨rc₁, g t₁, (hR t rc₁ _).mpr ⟨t₁, hdoes, rfl⟩, ?_⟩
    by_cases hrc : rc₁ = cliOk
    · rw [if_pos hrc] at hbranch ⊢
      exact (hS t₁ rc _).mpr ⟨t', hbranch, rfl⟩
    · rw [if_neg hrc] at hbranch ⊢
      exact (hT t₁ rc _).mpr ⟨t', hbranch, rfl⟩

theorem whileTurn_embeds (hR : Embeds g R R') (hS : Embeds g S S') :
    Embeds g (whileTurn R S) (whileTurn R' S') := by
  intro t o s'
  constructor
  · rintro ⟨rc₁, s₁, hcond, hbody⟩
    obtain ⟨t₁, hdoes, rfl⟩ := (hR t rc₁ s₁).mp hcond
    by_cases hrc : rc₁ = cliOk
    · rw [if_pos hrc] at hbody
      obtain ⟨t', hturn, rfl⟩ := (repeatTurn_embeds hS t₁ o s').mp hbody
      exact ⟨t', ⟨rc₁, t₁, hdoes, (if_pos hrc).mpr hturn⟩, rfl⟩
    · rw [if_neg hrc] at hbody
      obtain ⟨ho, rfl⟩ := hbody
      exact ⟨t₁, ⟨rc₁, t₁, hdoes, (if_neg hrc).mpr ⟨ho, rfl⟩⟩, rfl⟩
  · rintro ⟨t', ⟨rc₁, t₁, hdoes, hbody⟩, rfl⟩
    refine ⟨rc₁, g t₁, (hR t rc₁ _).mpr ⟨t₁, hdoes, rfl⟩, ?_⟩
    by_cases hrc : rc₁ = cliOk
    · rw [if_pos hrc] at hbody ⊢
      exact (repeatTurn_embeds hS t₁ o _).mpr ⟨t', hbody, rfl⟩
    · rw [if_neg hrc] at hbody ⊢
      exact ⟨hbody.1, congrArg g hbody.2⟩

end Embedding

section Steady

variable {runs : List (List UInt8) → Store → Int → Store → Prop} {sh : Shell} {fw : Fw} {a : Arg}
  {args : List Arg}

/-- A call that makes others and then sets the status. -/
theorem status_embeds {R : Fw → Int → Fw → Prop} {R' : Store → Int → Store → Prop}
    (hcalls : ∀ st rc fw', Calls Own sh (a :: args) (fw.put st) rc fw' ↔
      ∃ fw₁, R (fw.put st) rc fw₁ ∧ fw' = fw₁.setStatus rc)
    (h : Embeds (fun st => fw.put st) R R') :
    Embeds (fun st => fw.put st) (Calls Own sh (a :: args)) (WithStatus R') := by
  intro st rc fw'
  rw [hcalls]
  constructor
  · rintro ⟨fw₁, hR, rfl⟩
    obtain ⟨m, hm, rfl⟩ := (h st rc fw₁).mp hR
    exact ⟨m.setStatus rc, ⟨m, hm, rfl⟩, put_setStatus m rc fw⟩
  · rintro ⟨_, ⟨m, hm, rfl⟩, rfl⟩
    exact ⟨fw.put m, (h st rc _).mpr ⟨m, hm, rfl⟩, (put_setStatus m rc fw).symm⟩

/-- A handler that returns at once. -/
theorem ret_embeds {h : Handler} (hfind : cliCommandFind (fw.str a) = some h) {e : Store → Int}
    {after : Store → Store}
    (hr : ∀ t st, callHandler t sh (a :: args) (fw.put st) h = (fw.put (after st)).ret (e st)) :
    Embeds (fun st => fw.put st) (Calls Own sh (a :: args)) fun st rc st' =>
      rc = e st ∧ st' = (after st).setStatus rc := by
  intro st rc fw'
  rw [@calls_handler Own sh (fw.put st) fw' rc own_tick a args h _ hfind fun t => hr t st]
  simp only [returns_ret]
  constructor
  · rintro ⟨_, ⟨rfl, rfl⟩, rfl⟩
    exact ⟨(after st).setStatus (e st), ⟨rfl, rfl⟩, put_setStatus _ _ fw⟩
  · rintro ⟨_, ⟨rfl, rfl⟩, rfl⟩
    exact ⟨fw.put (after st), ⟨rfl, rfl⟩, (put_setStatus _ _ fw).symm⟩

theorem leaf_embeds (hfind : cliCommandFind (fw.str a) = some .leaf) :
    Embeds (fun st => fw.put st) (Calls Own sh (a :: args)) (Cmd.leaf.Does runs) := by
  intro st rc fw'
  rw [@calls_handler Own sh (fw.put st) fw' rc own_tick a args .leaf _ hfind fun t => rfl]
  constructor
  · rintro ⟨fw₁, hret, rfl⟩
    obtain ⟨flash, hsame, rfl⟩ := returns_leaf.mp hret
    exact ⟨_, ⟨flash, hsame, rfl⟩, rfl⟩
  · rintro ⟨_, ⟨flash, hsame, rfl⟩, rfl⟩
    exact ⟨fw.put { st with flash := flash }, returns_leaf.mpr ⟨flash, hsame, rfl⟩, rfl⟩

theorem unknown_embeds (hfind : cliCommandFind (fw.str a) = none) :
    Embeds (fun st => fw.put st) (Calls Own sh (a :: args))
      ((Cmd.refused cliErrArg).Does runs) := by
  intro st rc fw'
  rw [@calls_unknown Own sh (fw.put st) fw' rc own_tick a args hfind]
  constructor
  · rintro ⟨rfl, rfl⟩
    exact ⟨st.setStatus cliErrArg, ⟨rfl, rfl⟩, rfl⟩
  · rintro ⟨_, ⟨rfl, rfl⟩, rfl⟩
    exact ⟨rfl, rfl⟩

theorem nil_embeds : Embeds (fun st => fw.put st) (Calls Own sh []) (Cmd.nothing.Does runs) := by
  intro st rc fw'
  rw [calls_nil own_tick]
  constructor
  · rintro ⟨rfl, rfl⟩
    exact ⟨st, ⟨rfl, rfl⟩, rfl⟩
  · rintro ⟨_, ⟨rfl, rfl⟩, rfl⟩
    exact ⟨rfl, rfl⟩

/-- What `repeat` makes of its words, in calls. -/
theorem repeat_calls (hfind : cliCommandFind (fw.str a) = some .cmdRepeat) :
    (∃ e, readRepeat (fw.words args) = .error e ∧
      Embeds (fun st => fw.put st) (Calls Own sh (a :: args)) ((Cmd.refused e).Does runs)) ∨
    ∃ n sub, readRepeat (fw.words args) = .ok (n, fw.words sub) ∧
      ∀ st rc fw', Calls Own sh (a :: args) (fw.put st) rc fw' ↔
        ∃ fw₁, Loop (repeatTurn (Calls Own sh sub)) cliOk n (fw.put st) rc fw₁ ∧
        fw' = fw₁.setStatus rc := by
  rcases repeat_reads sh a args fw with ⟨e, hread, he⟩ | ⟨n, sub, hread, he⟩
  · exact .inl ⟨e, hread, @ret_embeds sh fw a args _ hfind (fun _ => e) id fun _ st => he st⟩
  · refine .inr ⟨n, sub, hread, fun st rc fw' => ?_⟩
    rw [@calls_handler Own sh (fw.put st) fw' rc own_tick a args _ _ hfind fun _ => he st]
    exact exists_congr fun fw₁ => and_congr_left fun _ => returns_repeat own_tick

/-- What `while` makes of them. -/
theorem while_calls (hfind : cliCommandFind (fw.str a) = some .cmdWhile) :
    (∃ e, readWhile (fw.words args) = .error e ∧
      Embeds (fun st => fw.put st) (Calls Own sh (a :: args)) ((Cmd.refused e).Does runs)) ∨
    ∃ cond body, readWhile (fw.words args) = .ok (fw.words cond, fw.words body) ∧
      ∀ st rc fw', Calls Own sh (a :: args) (fw.put st) rc fw' ↔
        ∃ fw₁, Loop (whileTurn (Calls Own sh cond) (Calls Own sh body)) cliErrHardware whileMaxIter
          (fw.put st) rc fw₁ ∧
          fw' = fw₁.setStatus rc := by
  rcases while_reads sh a args fw with ⟨e, hread, he⟩ | ⟨cond, body, hread, he⟩
  · exact .inl ⟨e, hread, @ret_embeds sh fw a args _ hfind (fun _ => e) id fun _ st => he st⟩
  · refine .inr ⟨cond, body, hread, fun st rc fw' => ?_⟩
    rw [@calls_handler Own sh (fw.put st) fw' rc own_tick a args _ _ hfind fun _ => he st]
    exact exists_congr fun fw₁ => and_congr_left fun _ => returns_while own_tick

/-- What `if` makes of them. -/
theorem if_calls (hfind : cliCommandFind (fw.str a) = some .cmdIf) :
    (∃ e, readIf (fw.words args) = .error e ∧
      Embeds (fun st => fw.put st) (Calls Own sh (a :: args)) ((Cmd.refused e).Does runs)) ∨
    ∃ cond thenArgv elseArgv, readIf (fw.words args) = .ok (fw.words cond, fw.words thenArgv,
      fw.words elseArgv) ∧
      ∀ st rc fw', Calls Own sh (a :: args) (fw.put st) rc fw' ↔
        ∃ fw₁, Branches (Calls Own sh cond) (Calls Own sh thenArgv) (Calls Own sh elseArgv)
          (fw.put st) rc fw₁ ∧
          fw' = fw₁.setStatus rc := by
  rcases if_reads sh a args fw with ⟨e, hread, he⟩ | ⟨cond, thenArgv, elseArgv, hread, he⟩
  · exact .inl ⟨e, hread, @ret_embeds sh fw a args _ hfind (fun _ => e) id fun _ st => he st⟩
  · refine .inr ⟨cond, thenArgv, elseArgv, hread, fun st rc fw' => ?_⟩
    rw [@calls_handler Own sh (fw.put st) fw' rc own_tick a args _ _ hfind fun _ => he st]
    exact exists_congr fun fw₁ => and_congr_left fun _ => returns_if own_tick

theorem words_length (fw : Fw) (argv : List Arg) : (fw.words argv).length = argv.length :=
  List.length_map _

/-- **A steady program does what it means.** -/
theorem steady_calls {argv : List Arg} (hc : (parse (fw.words argv)).Steady) :
    Embeds (fun st => fw.put st) (Calls Own sh argv) ((parse (fw.words argv)).Does runs) := by
  generalize hlen : argv.length = n
  induction n using Nat.strong_induction_on generalizing argv with
  | _ n ih =>
    subst hlen
    cases argv with
    | nil =>
      rw [show fw.words [] = [] from rfl, parse]
      exact nil_embeds
    | cons a args =>
      -- the parts of the arguments are shorter
      have hsub : ∀ sub : List Arg, (fw.words sub).length ≤ (fw.words args).length →
          (parse (fw.words sub)).Steady →
          Embeds (fun st => fw.put st) (Calls Own sh sub) ((parse (fw.words sub)).Does runs) := by
        intro sub hle hsteady
        rw [words_length, words_length] at hle
        exact ih sub.length (Nat.lt_succ_of_le hle) hsteady rfl
      rw [words_cons] at hc ⊢
      cases hfind : cliCommandFind (fw.str a) with
      | none =>
        rw [parse, hfind]
        exact unknown_embeds hfind
      | some h =>
        cases h with
        | leaf =>
          rw [parse, hfind]
          exact leaf_embeds hfind
        | cmdSet =>
          rw [parse, hfind] at hc ⊢
          exact ret_embeds hfind fun t st => set_reads hc
        | cmdUnset =>
          rw [parse, hfind]
          exact ret_embeds hfind fun t st => unset_reads a args (fw.put st)
        | cmdRun =>
          rw [parse, hfind] at hc
          exact hc.elim
        | cmdScript =>
          rw [parse, hfind] at hc
          exact hc.elim
        | cmdRepeat =>
          rw [parse_repeat hfind] at hc ⊢
          rcases repeat_calls hfind with ⟨e, hread, he⟩ | ⟨n, sub, hread, he⟩
          · rw [hread]
            exact he
          · rw [hread] at hc ⊢
            exact status_embeds he
              (Loop.embeds (repeatTurn_embeds (hsub sub (readRepeat_length hread) hc)) n)
        | cmdWhile =>
          rw [parse_while hfind] at hc ⊢
          rcases while_calls hfind with ⟨e, hread, he⟩ | ⟨cond, body, hread, he⟩
          · rw [hread]
            exact he
          · rw [hread] at hc ⊢
            obtain ⟨hcond, hbody⟩ := readWhile_length hread
            exact status_embeds he
              (Loop.embeds (whileTurn_embeds (hsub cond hcond hc.1) (hsub body hbody hc.2))
                whileMaxIter)
        | cmdIf =>
          rw [parse_if hfind] at hc ⊢
          rcases if_calls hfind with ⟨e, hread, he⟩ | ⟨cond, thenArgv, elseArgv, hread, he⟩
          · rw [hread]
            exact he
          · rw [hread] at hc ⊢
            obtain ⟨hcond, hthen, helse⟩ := readIf_length hread
            exact status_embeds he
              (branches_embeds (hsub cond hcond hc.1) (hsub thenArgv hthen hc.2.1)
                (hsub elseArgv helse hc.2.2))

end Steady

end PicoBLE.Cli
