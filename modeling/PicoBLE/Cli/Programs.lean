import PicoBLE.Cli.Heredoc
import PicoBLE.Cli.Language
import PicoBLE.Cli.LineStatus

/-!
# What a command line does

The last thing that a command line does may write to `g_expand_buf`: `set` cuts
an argument `NAME=VALUE` in two, and `run` expands the lines of its script into
the same array. Nobody reads what they leave there. So a line whose words are
needed up to that point and no further does what its program means, and so does
every line of a script, as `run` is refused in it.

The meaning of a line is stated first for the words it comes to, and these come
from the variables and arguments as they are when it is its turn.
-/

namespace PicoBLE.Cli

open CallStack
open CString (ascii)
open NorFlash (read)
open PicoBLE.Ota (Flash)
open PicoBLE.Storage
open PicoBLE.System (VarTable varsSet)

/-! ## What may be left in `g_expand_buf` -/

/-- The store may be another, and `g_expand_buf` too. The rest is as it was. -/
def KeepsRest (fw fw' : Fw) : Prop := ∃ st buf, fw' = { fw.put st with expandBuf := buf }

theorem keepsRest_put (fw : Fw) (st : Store) : KeepsRest fw (fw.put st) := ⟨st, fw.expandBuf, rfl⟩

theorem keepsRest_expandBuf (fw : Fw) (buf : ExpandBuf) :
    KeepsRest fw { fw with expandBuf := buf } :=
  ⟨fw.store, buf, rfl⟩

theorem KeepsRest.trans {fw fw' fw'' : Fw} (h : KeepsRest fw fw') (h' : KeepsRest fw' fw'') :
    KeepsRest fw fw'' := by
  obtain ⟨st, buf, rfl⟩ := h
  obtain ⟨st', buf', rfl⟩ := h'
  exact ⟨st', buf', rfl⟩

/-- From here on, what one relation does to the firmware is what another does to its store. -/
structure Agrees (fw : Fw) (R : Fw → Int → Fw → Prop) (R' : Store → Int → Store → Prop) : Prop where
  rest {rc : Int} {fw' : Fw} (h : R fw rc fw') : KeepsRest fw fw'
  does (rc : Int) (st' : Store) : R' fw.store rc st' ↔ ∃ fw', R fw rc fw' ∧ fw'.store = st'

section Agreement

variable {fw : Fw} {R S T C : Fw → Int → Fw → Prop} {R' S' T' : Store → Int → Store → Prop}

theorem Agrees.of_embeds (h : Embeds (fun st => fw.put st) R R') : Agrees fw R R' where
  rest {rc fw'} hR := by
    obtain ⟨st', -, rfl⟩ := (h fw.store rc fw').mp hR
    exact keepsRest_put fw st'
  does rc st' := by
    constructor
    · intro hdoes
      exact ⟨fw.put st', (h fw.store rc _).mpr ⟨st', hdoes, rfl⟩, rfl⟩
    · rintro ⟨fw', hR, rfl⟩
      obtain ⟨st', hdoes, rfl⟩ := (h fw.store rc fw').mp hR
      exact hdoes

/-- A call that makes others and then sets the status. -/
theorem Agrees.status (hcalls : ∀ rc fw', C fw rc fw' ↔ ∃ fw₁, R fw rc fw₁ ∧ fw' = fw₁.setStatus rc)
    (h : Agrees fw R R') : Agrees fw C (WithStatus R') where
  rest {rc fw'} hC := by
    obtain ⟨fw₁, hR, rfl⟩ := (hcalls rc fw').mp hC
    exact (h.rest hR).trans (keepsRest_put fw₁ (fw₁.store.setStatus rc))
  does rc st' := by
    constructor
    · rintro ⟨m, hm, rfl⟩
      obtain ⟨fw₁, hR, rfl⟩ := (h.does rc m).mp hm
      exact ⟨fw₁.setStatus rc, (hcalls rc _).mpr ⟨fw₁, hR, rfl⟩, rfl⟩
    · rintro ⟨fw', hC, rfl⟩
      obtain ⟨fw₁, hR, rfl⟩ := (hcalls rc fw').mp hC
      exact ⟨fw₁.store, (h.does rc _).mpr ⟨fw₁, hR, rfl⟩, rfl⟩

/-- The same relation, said otherwise. -/
theorem Agrees.congr (hR : ∀ rc fw', R fw rc fw' ↔ S fw rc fw') (h : Agrees fw S R') :
    Agrees fw R R' where
  rest {rc fw'} hcall := h.rest ((hR rc fw').mp hcall)
  does rc st' := by
    simp only [hR]
    exact h.does rc st'

/-- One thing behind another, and what is done then may depend on what was returned. -/
theorem Agrees.seq {S : Int → Fw → Int → Fw → Prop} {S' : Int → Store → Int → Store → Prop}
    (h : Agrees fw R R') (hrest : ∀ rc₁ fw₁, R fw rc₁ fw₁ → Agrees fw₁ (S rc₁) (S' rc₁)) :
    Agrees fw (fun fw rc fw' => ∃ rc₁ fw₁, R fw rc₁ fw₁ ∧ S rc₁ fw₁ rc fw')
      fun st rc st' => ∃ rc₁ m, R' st rc₁ m ∧ S' rc₁ m rc st' where
  rest {rc fw'} hseq := by
    obtain ⟨rc₁, fw₁, hR, hS⟩ := hseq
    exact (h.rest hR).trans ((hrest rc₁ fw₁ hR).rest hS)
  does rc st' := by
    constructor
    · rintro ⟨rc₁, m, hm, hdoes⟩
      obtain ⟨fw₁, hR, rfl⟩ := (h.does rc₁ m).mp hm
      obtain ⟨fw', hS, hst⟩ := ((hrest rc₁ fw₁ hR).does rc st').mp hdoes
      exact ⟨fw', ⟨rc₁, fw₁, hR, hS⟩, hst⟩
    · rintro ⟨fw', ⟨rc₁, fw₁, hR, hS⟩, hst⟩
      exact ⟨rc₁, fw₁.store, (h.does rc₁ _).mpr ⟨fw₁, hR, rfl⟩,
        ((hrest rc₁ fw₁ hR).does rc st').mpr ⟨fw', hS, hst⟩⟩

/-- The branches start where the condition has left off. -/
theorem Agrees.branches (hcond : Agrees fw R R') (hthen : ∀ rc fw₁, R fw rc fw₁ → Agrees fw₁ S S')
    (helse : ∀ rc fw₁, R fw rc fw₁ → Agrees fw₁ T T') :
    Agrees fw (Branches R S T) (Branches R' S' T') := by
  refine @Agrees.seq fw R R'
    (fun rc₁ fw₁ rc fw' => if rc₁ = cliOk then S fw₁ rc fw' else T fw₁ rc fw')
    (fun rc₁ m rc st' => if rc₁ = cliOk then S' m rc st' else T' m rc st')
    hcond fun rc₁ fw₁ hR => ?_
  by_cases hrc : rc₁ = cliOk
  · simp only [if_pos hrc]
    exact hthen rc₁ fw₁ hR
  · simp only [if_neg hrc]
    exact helse rc₁ fw₁ hR

end Agreement

/-! ## Nothing is written to the scripts -/

/-- Whatever it does to the flash is outside the scripts. -/
def KeepsScripts (R : Store → Int → Store → Prop) : Prop :=
  ∀ flash, Triple (fun st => SameScripts flash st.flash) R fun _ st => SameScripts flash st.flash

theorem KeepsScripts.status {R : Store → Int → Store → Prop} (h : KeepsScripts R) :
    KeepsScripts (WithStatus R) := by
  rintro flash st rc _ hst ⟨m, hm, rfl⟩
  exact h flash st rc m hst hm

/-- **No program does**, as long as `run` does not. -/
theorem does_keepsScripts {runs : List (List UInt8) → Store → Int → Store → Prop}
    (hruns : ∀ args, KeepsScripts (runs args)) (c : Cmd) : KeepsScripts (c.Does runs) := by
  induction c with
  | nothing =>
    rintro flash st rc _ hst ⟨-, rfl⟩
    exact hst
  | refused e =>
    rintro flash st rc _ hst ⟨-, rfl⟩
    exact hst
  | leaf =>
    rintro flash st rc _ hst ⟨flash', hsame, rfl⟩
    exact hst.trans hsame
  | set args =>
    rintro flash st rc _ hst ⟨-, rfl⟩
    exact hst
  | unset names =>
    rintro flash st rc _ hst ⟨-, rfl⟩
    exact hst
  | repeated n body ih =>
    refine KeepsScripts.status fun flash => Loop.triple (I := fun _ (st : Store) =>
      SameScripts flash st.flash)
      (fun k st o st' hst hturn => ?_) (fun _ hst => hst) n
    obtain ⟨rc, hbody, rfl⟩ := hturn
    have hkept := ih flash st rc st' hst hbody
    cases stops rc <;> exact hkept
  | whileDo cond body ihCond ihBody =>
    refine KeepsScripts.status fun flash => Loop.triple (I := fun _ (st : Store) =>
      SameScripts flash st.flash)
      (fun k st o st' hst hturn => ?_) (fun _ hst => hst) whileMaxIter
    obtain ⟨rc, m, hcond, hbody⟩ := hturn
    have hm := ihCond flash st rc m hst hcond
    have hkept : SameScripts flash st'.flash := by
      split at hbody
      · obtain ⟨rc₁, hbody, -⟩ := hbody
        exact ihBody flash m rc₁ st' hm hbody
      · rw [hbody.2]
        exact hm
    cases o <;> exact hkept
  | ifElse cond thenCmd elseCmd ihCond ihThen ihElse =>
    refine KeepsScripts.status fun flash st rc st' hst h => ?_
    obtain ⟨rc₁, m, hcond, hbranch⟩ := h
    have hm := ihCond flash st rc₁ m hst hcond
    split at hbranch
    · exact ihThen flash m rc st' hm hbranch
    · exact ihElse flash m rc st' hm hbranch
  | run args => exact (hruns args).status
  | script args => exact fun flash st rc st' _ h => h.elim

/-! ## Programs that write to their arguments at last -/

/-- `set` does what it does to the words, and to cut its argument it may write to it. -/
theorem set_writes (name : Arg) (args : List Arg) (fw : Fw) : ∃ buf, handleSet (name :: args) fw =
    Fw.ret { fw with vars := (setVars (fw.words args) fw.vars).1, expandBuf := buf }
      (setVars (fw.words args) fw.vars).2 := by
  by_cases hset : ∀ a, fw.words args = [a] → 61 ∉ a
  · exact ⟨fw.expandBuf, set_reads hset⟩
  · obtain ⟨_, hnot⟩ := not_forall.mp hset
    obtain ⟨hwords, hmem⟩ := Classical.not_imp.mp hnot
    obtain ⟨a, rfl, rfl⟩ := List.map_eq_singleton_iff.mp hwords
    replace hmem : 61 ∈ fw.str a := not_not.mp hmem
    generalize hi : (fw.str a).idxOf 61 = i
    have hlt : i < (fw.str a).length := hi ▸ List.idxOf_lt_length_of_mem hmem
    obtain ⟨hname, hvalue⟩ := @Buffer.str_split _ fw.expandBuf a.ptr i hlt
    have hsplit : setSplit fw [name, a] = some (a.ptr + i) := hi ▸ if_pos hmem
    have hvars : setVars (fw.words [a]) fw.vars =
        ((varsSet ((fw.str a).take i) ((fw.str a).drop (i + 1)) fw.vars).map (·, cliOk)).getD
            (fw.vars, cliErrArg) := by
      refine (if_pos hmem).trans ?_
      rw [hi]
      cases varsSet ((fw.str a).take i) ((fw.str a).drop (i + 1)) fw.vars <;> rfl
    refine ⟨fw.expandBuf.set (a.ptr + i) 0, ?_⟩
    rw [hvars]
    unfold handleSet
    dsimp only
    rw [hsplit]
    dsimp only [Fw.str] at hname ⊢
    rw [hname, hvalue]
    cases varsSet ((fw.expandBuf.str a.ptr).take i) ((fw.expandBuf.str a.ptr).drop (i + 1))
      fw.vars <;> rfl

section Calls

variable {runs : List (List UInt8) → Store → Int → Store → Prop} {sh : Shell} {fw : Fw} {a : Arg}
  {args : List Arg}

theorem set_agrees (hfind : cliCommandFind (fw.str a) = some .cmdSet) :
    Agrees fw (Calls Own sh (a :: args)) ((Cmd.set (fw.words args)).Does runs) := by
  obtain ⟨buf, hset⟩ := set_writes a args fw
  have hcalls : ∀ rc fw', Calls Own sh (a :: args) fw rc fw' ↔
      rc = (setVars (fw.words args) fw.vars).2 ∧
      fw' = Fw.setStatus { fw with
        vars := (setVars (fw.words args) fw.vars).1
        expandBuf := buf } rc := by
    intro rc fw'
    rw [@calls_handler Own sh fw fw' rc own_tick a args _ _ hfind fun _ => hset]
    simp only [returns_ret]
    constructor
    · rintro ⟨_, ⟨rfl, rfl⟩, rfl⟩
      exact ⟨rfl, rfl⟩
    · rintro ⟨rfl, rfl⟩
      exact ⟨_, ⟨rfl, rfl⟩, rfl⟩
  refine ⟨fun {rc fw'} hcall => ?_, fun rc st' => ?_⟩
  · obtain ⟨-, rfl⟩ := (hcalls rc fw').mp hcall
    exact
      ⟨Store.setStatus rc { fw.store with vars := (setVars (fw.words args) fw.vars).1 }, buf, rfl⟩
  · simp only [hcalls]
    constructor
    · rintro ⟨rfl, rfl⟩
      exact ⟨_, ⟨rfl, rfl⟩, rfl⟩
    · rintro ⟨_, ⟨rfl, rfl⟩, rfl⟩
      exact ⟨rfl, rfl⟩

/-- `run` does what `runs` says, wherever it is ready for it. -/
structure RunsAs (sh : Shell) (ready : Fw → Prop)
    (runs : List (List UInt8) → Store → Int → Store → Prop) : Prop where
  /-- It stays ready. -/
  stays {fw fw' : Fw} (h : ready fw) (hrest : KeepsRest fw fw')
    (hsame : SameScripts fw.flash fw'.flash) : ready fw'
  keeps (words : List (List UInt8)) : KeepsScripts (runs words)
  call {fw : Fw} {a : Arg} {args : List Arg} (h : ready fw)
    (hfind : cliCommandFind (fw.str a) = some .cmdRun) :
    Agrees fw (Calls Own sh (a :: args)) (WithStatus (runs (fw.words args)))

/-- **A program does what it means**, if its words are not needed once they are written over. -/
theorem ok_calls {ready : Fw → Prop} (hruns : RunsAs sh ready runs) {argv : List Arg}
    (hready : ready fw) (hc : (parse (fw.words argv)).Ok) :
    Agrees fw (Calls Own sh argv) ((parse (fw.words argv)).Does runs) := by
  generalize hlen : argv.length = n
  induction n using Nat.strong_induction_on generalizing argv fw with
  | _ n ih =>
    subst hlen
    cases argv with
    | nil =>
      rw [show fw.words [] = [] from rfl, parse]
      exact .of_embeds nil_embeds
    | cons a args =>
      rw [words_cons] at hc ⊢
      have hsteady : ∀ c : Cmd, parse (fw.str a :: fw.words args) = c → c.Steady →
          Agrees fw (Calls Own sh (a :: args)) (c.Does runs) := by
        rintro _ rfl hsteady
        exact .of_embeds (steady_calls hsteady)
      cases hfind : cliCommandFind (fw.str a) with
      | none => exact hsteady _ rfl (by rw [parse, hfind]; trivial)
      | some h =>
        cases h with
        | cmdSet =>
          rw [parse, hfind]
          exact set_agrees hfind
        | cmdRun =>
          rw [parse, hfind]
          exact hruns.call hready hfind
        | cmdIf =>
          rw [parse_if hfind] at hc ⊢
          rcases if_calls hfind with ⟨e, hread, he⟩ | ⟨cond, thenArgv, elseArgv, hread, he⟩
          · rw [hread]
            exact .of_embeds he
          · rw [hread] at hc ⊢
            obtain ⟨hcond, hthen, helse⟩ := hc
            obtain ⟨-, hthenLen, helseLen⟩ := readIf_length hread
            rw [words_length, words_length] at hthenLen helseLen
            have hbefore : Embeds (fun st => fw.put st) (Calls Own sh cond)
                ((parse (fw.words cond)).Does runs) :=
              steady_calls hcond
            -- behind the condition the scripts and the words are the same
            have hafter : ∀ rc fw₁, Calls Own sh cond fw rc fw₁ → ready fw₁ ∧
                fw₁.words = fw.words := by
              intro rc fw₁ hcall
              obtain ⟨m, hm, rfl⟩ := (hbefore fw.store rc fw₁).mp hcall
              have hsame :=
                does_keepsScripts hruns.keeps _ fw.flash fw.store rc m (SameScripts.refl _) hm
              exact ⟨hruns.stays hready (keepsRest_put fw m) hsame, rfl⟩
            refine .status (he fw.store)
              (.branches (.of_embeds hbefore) (fun rc fw₁ hcall => ?_) fun rc fw₁ hcall => ?_)
            · obtain ⟨hready₁, hwords⟩ := hafter rc fw₁ hcall
              rw [← hwords] at hthen ⊢
              exact ih thenArgv.length (Nat.lt_succ_of_le hthenLen) hready₁ hthen rfl
            · obtain ⟨hready₁, hwords⟩ := hafter rc fw₁ hcall
              rw [← hwords] at helse ⊢
              exact ih elseArgv.length (Nat.lt_succ_of_le helseLen) hready₁ helse rfl
        | leaf => exact hsteady _ rfl (by rw [parse, hfind]; trivial)
        | cmdUnset => exact hsteady _ rfl (by rw [parse, hfind]; trivial)
        | cmdScript =>
          rw [parse, hfind] at hc
          exact hc.elim
        | cmdRepeat =>
          refine hsteady _ rfl ?_
          rw [parse_repeat hfind] at hc ⊢
          cases hread : readRepeat (fw.words args) with
          | error e => trivial
          | ok parts =>
            rw [hread] at hc
            exact hc
        | cmdWhile =>
          refine hsteady _ rfl ?_
          rw [parse_while hfind] at hc ⊢
          cases hread : readWhile (fw.words args) with
          | error e => trivial
          | ok parts =>
            rw [hread] at hc
            exact hc

end Calls

/-! ## Lines -/

/-- The words that tokens come to. -/
def wordsOf (vars : VarTable) (shell : ShellState) (toks : List (List UInt8)) : List (List UInt8) :=
  toks.map fun tok => CString.ofBuffer (expansionOf vars shell tok)

instance (toks : List (List UInt8)) : Decidable (NamesShort toks) :=
  inferInstanceAs (Decidable (∀ tok ∈ toks, ∀ part ∈ tokenParts tok, part.short = true))

/-- The names are short enough, and everything fits into `g_expand_buf`. -/
abbrev Expandable (vars : VarTable) (shell : ShellState) (toks : List (List UInt8)) : Prop :=
  NamesShort toks ∧ expandedSize vars shell toks ≤ cliExpandBufSize

/-- **What a line does.** It is read with the variables and arguments of now. -/
def LineDoes {n : Nat} (runs : List (List UInt8) → Store → Int → Store → Prop) (line : Buffer n)
    (st : Store) (rc : Int) (st' : Store) : Prop :=
  match lineTokens line with
  | .error e => rc = e ∧ st' = st
  | .ok toks =>
    if Expandable st.vars st.shell toks then
      (parse (wordsOf st.vars st.shell toks)).Does runs st rc st'
    else rc = cliErrArg ∧ st' = st

/-- A line whose words are not needed once they are written over, without `script`. -/
def LineOk {n : Nat} (line : Buffer n) (vars : VarTable) (shell : ShellState) : Prop :=
  ∀ toks, lineTokens line = .ok toks → (parse (wordsOf vars shell toks)).Ok

section Lines

variable {n : Nat} {line : Buffer n} {runs : List (List UInt8) → Store → Int → Store → Prop}
  {sh : Shell} {fw : Fw}

theorem lineDoes_error {e rc : Int} {st st' : Store} (h : lineTokens line = .error e) :
    LineDoes runs line st rc st' ↔ rc = e ∧ st' = st := by
  unfold LineDoes
  rw [h]

theorem lineDoes_unfit {toks : List (List UInt8)} {rc : Int} {st st' : Store}
    (h : lineTokens line = .ok toks) (hfit : ¬ Expandable st.vars st.shell toks) :
    LineDoes runs line st rc st' ↔ rc = cliErrArg ∧ st' = st := by
  unfold LineDoes
  rw [h]
  dsimp only
  rw [if_neg hfit]

theorem lineDoes_words {toks : List (List UInt8)} {rc : Int} {st st' : Store}
    (h : lineTokens line = .ok toks) (hfit : Expandable st.vars st.shell toks) :
    LineDoes runs line st rc st' ↔ (parse (wordsOf st.vars st.shell toks)).Does runs st rc st' := by
  unfold LineDoes
  rw [h]
  dsimp only
  rw [if_pos hfit]

theorem lineDoes_keepsScripts (hruns : ∀ args, KeepsScripts (runs args)) (line : Buffer n) :
    KeepsScripts (LineDoes runs line) := by
  intro flash st rc st' hst h
  unfold LineDoes at h
  split at h
  · rw [h.2]
    exact hst
  · split at h
    · exact does_keepsScripts hruns _ flash st rc st' hst h
    · rw [h.2]
      exact hst

theorem ArgBytes.word {vars : VarTable} {shell : ShellState} {buf : ExpandBuf} {a : Arg}
    {tok : List UInt8} (h : ArgBytes vars shell buf a tok) :
    buf.str a.ptr = CString.ofBuffer (expansionOf vars shell tok) := by
  have hsplit :=
    List.take_append_drop ((expansionOf vars shell tok).length + 1) (buf.bytes.drop a.ptr)
  rw [h, List.append_assoc] at hsplit
  rw [Buffer.str, ← hsplit]
  exact CString.ofBuffer_zero _ _

/-- **The expansion fails, or the arguments are the words.** -/
theorem expandArgv_words (vars : VarTable) (shell : ShellState) (toks : List (List UInt8))
    (buf : ExpandBuf) :
    ¬ Expandable vars shell toks ∧ (expandArgv vars shell toks buf).2.2 = none ∨
    Expandable vars shell toks ∧ ∃ argv, (expandArgv vars shell toks buf).2.2 = some argv ∧
      argv.map (fun a => (expandArgv vars shell toks buf).1.str a.ptr) =
        wordsOf vars shell toks := by
  have hsome := @expandFrom_isSome vars shell toks buf 0 (Nat.zero_le _)
  rw [Nat.zero_add] at hsome
  unfold expandArgv
  cases hargs : (expandFrom vars shell toks buf 0).2.2 with
  | none =>
    rw [hargs] at hsome
    exact .inl ⟨fun hfit => absurd (hsome.mpr hfit) (by simp), rfl⟩
  | some argv =>
    rw [hargs] at hsome
    refine .inr ⟨hsome.mp rfl, argv, rfl, ?_⟩
    have hbytes := expandFrom_bytes (Nat.zero_le _) hargs
    rw [wordsOf]
    generalize (expandFrom vars shell toks buf 0).1 = buf' at hbytes
    clear hargs hsome
    induction hbytes with
    | nil => rfl
    | cons harg _ ih => rw [List.map_cons, List.map_cons, ih, harg.word]

/-- It returns a value, and leaves nothing else behind. -/
theorem Agrees.ret {R : Fw → Int → Fw → Prop} {R' : Store → Int → Store → Prop} {e : Int}
    {buf : ExpandBuf} (hR : ∀ rc fw', R fw rc fw' ↔ rc = e ∧ fw' = { fw with expandBuf := buf })
    (hR' : ∀ rc st', R' fw.store rc st' ↔ rc = e ∧ st' = fw.store) : Agrees fw R R' where
  rest {rc fw'} h := by
    obtain ⟨-, rfl⟩ := (hR rc fw').mp h
    exact keepsRest_expandBuf fw buf
  does rc st' := by
    rw [hR']
    constructor
    · rintro ⟨rfl, rfl⟩
      exact ⟨_, (hR _ _).mpr ⟨rfl, rfl⟩, rfl⟩
    · rintro ⟨fw', h, rfl⟩
      obtain ⟨rfl, rfl⟩ := (hR rc fw').mp h
      exact ⟨rfl, rfl⟩

/-- **A line does what it means.** -/
theorem line_agrees {ready : Fw → Prop} (hruns : RunsAs sh ready runs) (hready : ready fw)
    (hok : LineOk line fw.vars fw.shell) :
    Agrees fw (LineCalls Own sh line) (LineDoes runs line) := by
  rcases dispatchLine_cases sh line fw with ⟨e, htoks, he⟩ | ⟨toks, buf, off, htoks, hexp⟩
  · -- there is nothing to expand
    refine @Agrees.ret fw _ _ e fw.expandBuf (fun rc fw' => ?_) fun _ _ => lineDoes_error htoks
    rw [LineCalls, he, returns_ret]
  · have hwords := expandArgv_words fw.vars fw.shell toks fw.expandBuf
    rcases hexp with ⟨hnone, he⟩ | ⟨argv, hargv, he⟩
    · rw [hnone] at hwords
      have hno : ¬ Expandable fw.vars fw.shell toks := by
        rcases hwords with ⟨hno, -⟩ | ⟨-, argv, hsome, -⟩
        · exact hno
        · exact absurd hsome (by simp)
      refine @Agrees.ret fw _ _ cliErrArg buf (fun rc fw' => ?_) fun _ _ => lineDoes_unfit htoks hno
      rw [LineCalls, he, returns_ret]
    · rw [hargv] at hwords
      obtain ⟨hyes, hmap⟩ : Expandable fw.vars fw.shell toks ∧
          Fw.words { fw with expandBuf := buf } argv = wordsOf fw.vars fw.shell toks := by
        rcases hwords with ⟨-, hno⟩ | ⟨hyes, argv', hsome, hmap⟩
        · exact absurd hno (by simp)
        · obtain rfl := Option.some.inj hsome
          exact ⟨hyes, hmap⟩
      have hprog := hok toks htoks
      rw [← hmap] at hprog
      have hready' := hruns.stays hready (keepsRest_expandBuf fw buf) (SameScripts.refl fw.flash)
      have hcall := ok_calls hruns hready' hprog
      have hline : ∀ rc fw', LineCalls Own sh line fw rc fw' ↔
          Calls Own sh argv { fw with expandBuf := buf } rc fw' := by
        intro rc fw'
        rw [LineCalls, he]
        exact calls_rc
      refine ⟨fun {rc fw'} h => (keepsRest_expandBuf fw buf).trans
        (hcall.rest ((hline rc fw').mp h)), fun rc st' => ?_⟩
      have hdoes : LineDoes runs line fw.store rc st' ↔
          (parse (wordsOf fw.vars fw.shell toks)).Does runs fw.store rc st' :=
            lineDoes_words htoks hyes
      simp only [hline]
      rw [hdoes, ← hmap]
      exact hcall.does rc st'

end Lines

/-! ## Scripts -/

/-- The lines one after another. What they return is not looked at. -/
def LinesDo (runs : List (List UInt8) → Store → Int → Store → Prop) : List (List UInt8) → Store →
    Store → Prop
  | [], st, st' => st' = st
  | text :: lines, st, st' =>
    ∃ rc m, LineDoes runs (Buffer.ofString cliLineMax text) st rc m ∧ LinesDo runs lines m st'

/-- `run` in a script: one is in progress. -/
def noRun (args : List (List UInt8)) (st : Store) (rc : Int) (st' : Store) : Prop :=
  rc = (if args = [] then cliErrUsage else cliErrArg) ∧ st' = st

/-- **`run` outside one.** The arguments are there for the lines, and gone behind them. -/
def runScript (args : List (List UInt8)) (st : Store) (rc : Int) (st' : Store) : Prop :=
  match args with
  | [] => rc = cliErrUsage ∧ st' = st
  | name :: _ =>
    match scriptsOpen false name st.flash.image with
    | none => rc = cliErrArg ∧ st' = st
    | some script =>
      match shellPushArgs args st.shell with
      | none => rc = cliErrHardware ∧ st' = st
      | some shell => rc = cliOk ∧ ∃ m,
        LinesDo noRun (scriptCommands (script.text st.flash.image)) { st with shell := shell } m ∧
          st' = { m with shell := shellPopArgs m.shell }

/-- All lines of all scripts are such lines, whatever the variables are. -/
def ScriptsOk (flash : Flash) : Prop :=
  ∀ name script, scriptsOpen false name flash.image = some script →
    ∀ text ∈ scriptCommands (script.text flash.image), ∀ vars shell,
      LineOk (Buffer.ofString cliLineMax text) vars shell

theorem linesDo_keepsScripts {runs : List (List UInt8) → Store → Int → Store → Prop}
    (hruns : ∀ args, KeepsScripts (runs args)) {lines : List (List UInt8)} {st st' : Store}
    (h : LinesDo runs lines st st') : SameScripts st.flash st'.flash := by
  induction lines generalizing st with
  | nil =>
    obtain rfl := h
    exact SameScripts.refl _
  | cons text lines ih =>
    obtain ⟨rc, m, hline, hrest⟩ := h
    exact (lineDoes_keepsScripts hruns _ _ st rc m (SameScripts.refl _) hline).trans (ih hrest)

theorem noRun_keepsScripts (args : List (List UInt8)) : KeepsScripts (noRun args) := by
  rintro flash st rc _ hst ⟨-, rfl⟩
  exact hst

theorem runScript_keepsScripts (args : List (List UInt8)) : KeepsScripts (runScript args) := by
  intro flash st rc st' hst h
  unfold runScript at h
  split at h
  · rw [h.2]
    exact hst
  · split at h
    · rw [h.2]
      exact hst
    · split at h
      · rw [h.2]
        exact hst
      · obtain ⟨-, m, hlines, rfl⟩ := h
        have hsame := linesDo_keepsScripts noRun_keepsScripts hlines
        exact hst.trans hsame

/-! The scripts that can be opened are the same. -/

theorem SameScripts.symm {f g : Flash} (h : SameScripts f g) : SameScripts g f :=
  fun a hlt hle => (h a hlt hle).symm

theorem SameScripts.scriptsOpen {f g : Flash} (h : SameScripts f g) (gOpen : Bool)
    (name : List UInt8) :
    scriptsOpen gOpen name g.image = scriptsOpen gOpen name f.image := by
  have hfind : findByName name g.image = findByName name f.image := by
    refine congrArg (scriptSlots.find? ·) (funext fun slot => ?_)
    rw [slotValid_congr (h.read_slot slot), slotName, slotName, slotHdr_congr (h.read_slot slot)]
  have hlen : ∀ slot, slotBodyLen slot g.image = slotBodyLen slot f.image := by
    have hpass : ∀ {f g : Flash} {slot : ScriptSlot} {n : Nat}, SameScripts f g →
        slotBodyLen slot f.image = some n → slotBodyLen slot g.image = some n :=
      fun {f g slot n} h hn =>
        (@OpenIn.congr slot ⟨_, n⟩ f.image g.image ⟨rfl, hn⟩ (h.read_slot slot)).1.2
    exact fun slot => Option.ext fun n => ⟨hpass h.symm, hpass h⟩
  unfold Storage.scriptsOpen
  rw [hfind]
  simp only [hlen]

/-- What can be opened is in a slot that is in use. -/
theorem scriptsOpen_valid {gOpen : Bool} {name : List UInt8} {f : NorFlash.Image}
    {script : OpenScript} (h : scriptsOpen gOpen name f = some script) :
    ∃ slot, slotValid slot f = true ∧ OpenIn slot script f := by
  unfold Storage.scriptsOpen at h
  split at h
  · exact absurd h (by simp)
  · split at h
    · exact absurd h (by simp)
    · next slot hfind =>
      split at h
      · exact absurd h (by simp)
      · next bodyLen hlen =>
        obtain rfl := Option.some.inj h
        have hfound := List.find?_some hfind
        exact ⟨slot, (Bool.and_eq_true_iff.mp hfound).1, rfl, hlen⟩

theorem SameScripts.text {f g : Flash} (h : SameScripts f g) {gOpen : Bool} {name : List UInt8}
    {script : OpenScript} (hopen : Storage.scriptsOpen gOpen name f.image = some script) :
    script.text g.image = script.text f.image := by
  obtain ⟨slot, hslot⟩ := scriptsOpen_openIn hopen
  exact (hslot.congr (h.read_slot slot)).2

theorem ScriptsOk.congr {f g : Flash} (h : ScriptsOk f) (hsame : SameScripts f g) :
    ScriptsOk g := by
  intro name script hopen
  rw [hsame.scriptsOpen] at hopen
  rw [hsame.text hopen]
  exact h name script hopen

section Run

variable {sh : Shell} {fw : Fw}

/-- A handler that does nothing but return an error. -/
theorem refuses_agrees {R : Store → Int → Store → Prop} {a : Arg} {args : List Arg}
    {h : Handler} {e : Int} (hfind : cliCommandFind (fw.str a) = some h)
    (hr : ∀ t, callHandler t sh (a :: args) fw h = fw.ret e)
    (hR : ∀ rc st', R fw.store rc st' ↔ rc = e ∧ st' = fw.store) :
    Agrees fw (Calls Own sh (a :: args)) (WithStatus R) := by
  have hret : Agrees fw (fun fw₀ rc fw' => rc = e ∧ fw' = fw₀) R :=
    @Agrees.ret fw _ _ e fw.expandBuf (fun rc fw' => Iff.rfl) hR
  refine hret.status fun rc fw' => ?_
  rw [@calls_handler Own sh fw fw' rc own_tick a args h _ hfind hr]
  simp only [returns_ret]

/-- In a script, `run` returns an error. -/
theorem noRun_runsAs (sh : Shell) : RunsAs sh (fun fw => fw.running = true) noRun where
  stays {fw fw'} h hrest _ := by
    obtain ⟨st, buf, rfl⟩ := hrest
    exact h
  keeps := noRun_keepsScripts
  call {fw a args} h hfind := by
    refine @refuses_agrees sh fw _ a args _ (if fw.words args = [] then cliErrUsage
      else cliErrArg) hfind (fun _ => ?_)
      fun _ _ => Iff.rfl
    cases args with
    | nil => rfl
    | cons name args =>
      rw [if_neg (by simp [Fw.words])]
      exact if_pos h

/-- **The loop of `run` does the lines.** -/
theorem runLines_agrees {slot : ScriptSlot} {script : OpenScript} {off : Nat} {text : List UInt8}
    (hrun : fw.running = true) (hslot : OpenIn slot script fw.flash.image)
    (htext : script.text fw.flash.image = text)
    (hok : ∀ line ∈ commandsFrom text off, ∀ vars shell,
      LineOk (Buffer.ofString cliLineMax line) vars shell) :
    Agrees fw (fun fw _ fw' => RunLines Own sh script off fw fw')
      fun st _ st' => LinesDo noRun (commandsFrom text off) st st' := by
  have hlen : text.length = script.bodyLen := htext ▸ text_length script fw.flash.image
  generalize hleft : script.bodyLen - off = left
  induction left using Nat.strong_induction_on generalizing off fw with
  | _ left ih =>
    subst htext
    by_cases hoff : off < script.bodyLen
    · have hfar := @runAdvance_gt (script.text fw.flash.image) off (by rw [hlen]; exact hoff)
      rw [commandsFrom, if_pos (by rw [hlen]; exact hoff)] at hok ⊢
      by_cases hskip : runSkips (runLine (script.text fw.flash.image) off) = true
      · rw [if_pos hskip] at hok ⊢
        exact .congr (fun _ _ => runLines_skip hoff hskip) (ih _ (by omega) hrun hslot rfl hok rfl)
      · rw [if_neg hskip] at hok ⊢
        obtain ⟨hfirst, hothers⟩ := List.forall_mem_cons.mp hok
        have hline := line_agrees (noRun_runsAs sh) hrun (hfirst fw.vars fw.shell)
        refine .congr (fun _ _ => runLines_line hoff hskip) (hline.seq fun rc₁ fw₁ hcall => ?_)
        -- behind the line it is still the same text
        have hsame : SameScripts fw.flash fw₁.flash :=
          lineDoes_keepsScripts noRun_keepsScripts _ _ fw.store rc₁
          fw₁.store (SameScripts.refl _) ((hline.does rc₁ _).mpr ⟨fw₁, hcall, rfl⟩)
        obtain ⟨hslot₁, htext₁⟩ := hslot.congr (hsame.read_slot slot)
        exact ih _ (by omega) ((noRun_runsAs sh).stays hrun (hline.rest hcall) hsame) hslot₁
          htext₁ hothers rfl
    · rw [commandsFrom_end (by rw [hlen]; exact Nat.le_of_not_lt hoff)]
      refine ⟨fun {rc fw'} h => ?_, fun rc st' => ?_⟩
      · rw [(runLines_done (Nat.le_of_not_lt hoff)).mp h]
        exact keepsRest_expandBuf fw fw.expandBuf
      · simp only [runLines_done (Nat.le_of_not_lt hoff), exists_eq_left]
        exact eq_comm

theorem idle_eq (hrun : fw.running = false) (hopen : fw.scriptOpen = false) :
    ({ fw with running := false, scriptOpen := false } : Fw) = fw := by
  cases fw
  dsimp only at hrun hopen
  rw [hrun, hopen]

/-- `run` returns an error, or starts the loop. -/
theorem run_reads (hrun : fw.running = false) (hopen : fw.scriptOpen = false) (a : Arg)
    (args : List Arg) :
    (∃ e, handleRun sh (a :: args) fw = fw.ret e ∧
      ∀ rc st', runScript (fw.words args) fw.store rc st' ↔ rc = e ∧ st' = fw.store) ∨
    ∃ name script shell, scriptsOpen false name fw.flash.image = some script ∧
      handleRun sh (a :: args) fw =
        Fw.goto { fw with shell := shell, running := true, scriptOpen := true }
          (.runNext sh script 0) cliOk ∧
      ∀ rc st', runScript (fw.words args) fw.store rc st' ↔ rc = cliOk ∧ ∃ m,
        LinesDo noRun (scriptCommands (script.text fw.flash.image))
          { fw.store with shell := shell } m ∧
          st' = { m with shell := shellPopArgs m.shell } := by
  cases args with
  | nil => exact .inl ⟨cliErrUsage, rfl, fun _ _ => Iff.rfl⟩
  | cons name args =>
    rw [words_cons]
    have hwords : ((a :: name :: args).drop 1).map fw.str = fw.str name :: fw.words args := rfl
    unfold handleRun runScript
    dsimp only [Fw.store]
    rw [idle_eq hrun hopen, hrun, hopen, if_neg Bool.false_ne_true, hwords]
    cases hscript : scriptsOpen false (fw.str name) fw.flash.image with
    | none => exact .inl ⟨cliErrArg, rfl, fun _ _ => Iff.rfl⟩
    | some script =>
      dsimp only
      cases shellPushArgs (fw.str name :: fw.words args) fw.shell with
      | none => exact .inl ⟨cliErrHardware, rfl, fun _ _ => Iff.rfl⟩
      | some shell => exact .inr ⟨_, script, shell, hscript, rfl, fun _ _ => Iff.rfl⟩

/-- `run` when there is no script in progress, and none needs words that it has written over. -/
theorem runScript_runsAs (sh : Shell) :
    RunsAs sh (fun fw => fw.running = false ∧ fw.scriptOpen = false ∧
      ScriptsOk fw.flash) runScript where
  stays {fw fw'} h hrest hsame := by
    obtain ⟨st, buf, rfl⟩ := hrest
    exact ⟨h.1, h.2.1, h.2.2.congr hsame⟩
  keeps := runScript_keepsScripts
  call {fw a args} h hfind := by
    obtain ⟨hrun, hopen, hok⟩ := h
    rcases @run_reads sh fw hrun hopen a args with ⟨e, he, hdoes⟩ | ⟨name, script, shell,
      hscript, he, hdoes⟩
    · exact refuses_agrees hfind (fun _ => he) hdoes
    · obtain ⟨slot, hslot⟩ := scriptsOpen_openIn hscript
      have hlines : Agrees { fw with shell := shell, running := true, scriptOpen := true }
          (fun fw _ fw' => RunLines Own sh script 0 fw fw')
          fun st _ st' => LinesDo noRun (scriptCommands (script.text fw.flash.image)) st st' :=
        runLines_agrees rfl hslot rfl (hok name script hscript)
      -- the loop puts back what was there before it
      have hback : ∀ (st : Store) buf, (runReturn { fw.put st with
          running := true, scriptOpen := true, expandBuf := buf }).fw =
          { fw.put { st with shell := shellPopArgs st.shell } with expandBuf := buf } := by
        intro st buf
        conv_rhs => rw [← idle_eq hrun hopen]
        rfl
      have hcalls : Agrees fw (fun fw rc fw' => ∃ fw₁, RunLines Own sh script 0
          { fw with shell := shell, running := true, scriptOpen := true } fw₁ ∧ rc = cliOk ∧
            fw' = (runReturn fw₁).fw) (runScript (fw.words args)) := by
        refine ⟨fun {rc fw'} h => ?_, fun rc st' => ?_⟩
        · obtain ⟨fw₁, hloop, -, rfl⟩ := h
          obtain ⟨st, buf, rfl⟩ := @hlines.rest rc fw₁ hloop
          exact ⟨_, buf, hback st buf⟩
        · rw [hdoes]
          constructor
          · rintro ⟨rfl, m, hm, rfl⟩
            obtain ⟨fw₁, hloop, rfl⟩ := (hlines.does cliOk m).mp hm
            exact ⟨_, ⟨fw₁, hloop, rfl, rfl⟩, rfl⟩
          · rintro ⟨_, ⟨fw₁, hloop, rfl, rfl⟩, rfl⟩
            exact ⟨rfl, fw₁.store, (hlines.does cliOk _).mpr ⟨fw₁, hloop, rfl⟩, rfl⟩
      refine hcalls.status fun rc fw' => ?_
      rw [@calls_handler Own sh fw fw' rc own_tick a args _ _ hfind fun _ => he]
      simp only [Fw.goto, returns_run own_tick]

/-! ## In the machine -/

/-- **What a command line does is what its program means.** While no script is in progress a shell
dispatches a line without `script`, above whatever waits, and no words are needed that have been
written over, in the line or in the scripts. Then whenever it has returned, with no input and no
binding in between, it has returned and left behind what the line means, and the rest but
`g_expand_buf` is as it was; and it can return everything that this can be. -/
theorem line_does {n : Nat} {line : Buffer n} (sh : Shell) {below : List Frame}
    (hrun : fw.running = false) (hopen : fw.scriptOpen = false) (hok : LineOk line fw.vars fw.shell)
    (hscripts : ScriptsOk fw.flash) :
    (∀ es m, machine.Runs (fun m e => Above below m e ∧ Own e)
        ((cliDispatchLine sh line fw).resume below) es m → m.stack = below →
      LineDoes runScript line fw.store m.rc m.fw.store ∧ KeepsRest fw m.fw) ∧
    ∀ rc st', LineDoes runScript line fw.store rc st' →
      ∃ es m, machine.Runs (fun m e => Above below m e ∧ Own e)
        ((cliDispatchLine sh line fw).resume below) es m ∧ m.stack = below ∧ m.rc = rc ∧
        m.fw.store = st' := by
  have hagrees := line_agrees (runScript_runsAs sh) ⟨hrun, hopen, hscripts⟩ hok
  have hdrives := shellCalls_drives Own
  constructor
  · intro es m hruns hend
    have hcall : LineCalls Own sh line fw m.rc m.fw := hdrives.returns hruns rfl hend
    exact ⟨(hagrees.does m.rc _).mpr ⟨m.fw, hcall, rfl⟩, hagrees.rest hcall⟩
  · intro rc st' hdoes
    obtain ⟨fw', hcall, rfl⟩ := (hagrees.does rc st').mp hdoes
    obtain ⟨es, m, hruns, hend, hstate⟩ := hdrives.runs hcall
      (m := (cliDispatchLine sh line fw).resume below) rfl rfl
    obtain ⟨rfl, rfl⟩ := Prod.mk.inj hstate
    exact ⟨es, m, hruns, hend, rfl, rfl⟩

end Run

/-! ## A line that runs a script -/

theorem wordsOf_plain {vars : VarTable} {shell : ShellState} {words : List (List UInt8)}
    (h : ∀ word ∈ words, PlainWord word) : wordsOf vars shell words = words := by
  have hword : ∀ word ∈ words, CString.ofBuffer (expansionOf vars shell word) = word := by
    intro word hmem
    rw [expansionOf_plain (h word hmem).dollar, CString.ofBuffer_eq (h word hmem).nul]
  exact (List.map_congr_left hword).trans (List.map_id words)

theorem plainWords {words : List (List UInt8)}
    (h : ∀ word ∈ words, word ≠ [] ∧ 0 ∉ word ∧ ∀ c ∈ word, isPlain c = true) :
    ∀ word ∈ words, PlainWord word :=
  fun word hword => ⟨(h word hword).1, (h word hword).2.1, (h word hword).2.2⟩

theorem parse_leaf {name : List UInt8} {args : List (List UInt8)}
    (hfind : cliCommandFind name = some .leaf) :
    parse (name :: args) = .leaf := by
  rw [parse, hfind]

/-- The script that has been saved is one command that looks at the hardware. -/
theorem scriptsOk_light : ScriptsOk lightSaved.flash := by
  have honly : ∀ slot : ScriptSlot, slotValid slot lightSaved.flash.image = true →
      slot = ⟨0, by decide⟩ := by
    decide +kernel
  have hstored : slotBodyLen ⟨0, by decide⟩ lightSaved.flash.image = some 22 ∧
      read (scriptStorageOffset + scriptHeaderSize) 22 lightSaved.flash.image =
        textOf lightLines := by decide +kernel
  have hcommands : scriptCommands (textOf lightLines) = [ascii "gpio 25 high"] := by
    rw [scriptCommands_lines]
    decide +kernel
  have htoks : lineTokens (keyed "gpio 25 high") = .ok [ascii "gpio", ascii "25",
      ascii "high"] := by decide +kernel
  intro name script hopen text htext vars shell toks htoks'
  obtain ⟨slot, hvalid, hslot⟩ := scriptsOpen_valid hopen
  obtain rfl := honly slot hvalid
  have hlen : script.bodyLen = 22 := Option.some.inj (hslot.2.symm.trans hstored.1)
  have hread : script.text lightSaved.flash.image = textOf lightLines := by
    rw [OpenScript.text, hslot.1, hlen]
    exact hstored.2
  rw [hread, hcommands, List.mem_singleton] at htext
  subst htext
  obtain rfl := Except.ok.inj (htoks.symm.trans htoks')
  rw [wordsOf_plain (plainWords (by decide +kernel)), parse_leaf rfl]
  trivial

/-- What `if echo then run hi` leaves when it has run. -/
theorem ifRunLight_does : ∃ m : Machine, m.stack = [] ∧ m.rc = cliOk ∧
    LineDoes runScript (keyed "if echo then run hi") (Fw.boot lightSaved.flash).store
      m.rc m.fw.store ∧
    KeepsRest (Fw.boot lightSaved.flash) m.fw := by
  have htoks : lineTokens (keyed "if echo then run hi") =
      .ok [ascii "if", ascii "echo", ascii "then", ascii "run", ascii "hi"] := by decide +kernel
  have hread : readIf [ascii "echo", ascii "then", ascii "run", ascii "hi"] =
      .ok ([ascii "echo"], [ascii "run", ascii "hi"], []) := by decide +kernel
  have hparse : parse [ascii "if", ascii "echo", ascii "then", ascii "run", ascii "hi"] =
      .ifElse .leaf (.run [ascii "hi"]) .nothing := by
    have hrun : parse [ascii "run", ascii "hi"] = .run [ascii "hi"] := by
      rw [parse]
      rfl
    rw [parse_if rfl, hread]
    dsimp only
    rw [parse_leaf rfl, hrun, parse]
  have hok : ∀ vars shell, LineOk (keyed "if echo then run hi") vars shell := by
    intro vars shell toks htoks'
    obtain rfl := Except.ok.inj (htoks.symm.trans htoks')
    rw [wordsOf_plain (plainWords (by decide +kernel)), hparse]
    exact ⟨trivial, trivial, trivial⟩
  have hscripts : ScriptsOk (Fw.boot lightSaved.flash).flash := scriptsOk_light
  -- `echo` returns, then the script runs, and `gpio` returns
  have hend : (LTS.exec Machine.step (fun m e => Above [] m e ∧ Own e)
      ((cliDispatchLine .usb (keyed "if echo then run hi") (Fw.boot lightSaved.flash)).resume [])
      (List.replicate 2 (.tick calm) ++ [.leafDone cliOk] ++ List.replicate 6 (.tick calm) ++
        [.leafDone cliOk] ++
        List.replicate 4 (.tick calm))).map (fun m => (m.stack, m.rc)) = some ([], cliOk) := by
          decide +kernel
  obtain ⟨m, hm, hview⟩ := Option.map_eq_some_iff.mp hend
  obtain ⟨hstack, hrc⟩ := Prod.mk.inj hview
  exact ⟨m, hstack, hrc, (line_does .usb rfl rfl (hok _ _) hscripts).1 _ m
    (LTS.runs_exec hm) hstack⟩

end PicoBLE.Cli
