import Mathlib.Data.List.Basic
import Mathlib.Data.Option.Basic
import Mathlib.Tactic.Common

/-!
# The last word

A register holds what was last written to it, and who writes may depend on what
has happened before: a driver that sets something up the first time it is used
says nothing the second time. A history has its newest event first. Each event
says something of a register or not, heard with what came before it, and the
register holds the last word (`Records`).
-/

namespace LastWord

variable {α β γ : Type}

/-- What the newest event that says something says. -/
def lastWord (word : List α → α → Option β) : List α → Option β
  | [] => none
  | a :: before => (word before a).or (lastWord word before)

/-- None of the events since `before` says anything. -/
def Silent (word : List α → α → Option β) (before : List α) : List α → Prop
  | [] => True
  | a :: after => word (after ++ before) a = none ∧ Silent word before after

section Words

variable {word : List α → α → Option β} {before : List α} {a : α} {b : β}

theorem lastWord_spoken (h : word before a = some b) : lastWord word (a :: before) = some b := by
  rw [lastWord, h, Option.some_or]

theorem lastWord_silent (h : word before a = none) :
    lastWord word (a :: before) = lastWord word before := by
  rw [lastWord, h, Option.none_or]

/-- Behind events that say nothing the last word is as before them. -/
theorem lastWord_after {after : List α} (h : Silent word before after) :
    lastWord word (after ++ before) = lastWord word before := by
  induction after with
  | nil => rfl
  | cons a after ih =>
    rw [List.cons_append, lastWord_silent h.1]
    exact ih h.2

/-- **Who had the last word.** -/
theorem lastWord_eq_some {history : List α} : lastWord word history = some b ↔
    ∃ after a before, history = after ++ a :: before ∧ word before a = some b ∧ Silent word
    (a :: before) after := by
  constructor
  · intro h
    induction history with
    | nil => exact absurd h.symm (Option.some_ne_none b)
    | cons a before ih =>
      cases hword : word before a with
      | some c =>
        rw [lastWord_spoken hword] at h
        exact ⟨[], a, before, rfl, hword.trans h, trivial⟩
      | none =>
        rw [lastWord_silent hword] at h
        obtain ⟨after, a', before', rfl, hword', hsilent⟩ := ih h
        exact ⟨a :: after, a', before', rfl, hword', hword, hsilent⟩
  · rintro ⟨after, a, before, rfl, hword, hsilent⟩
    rw [lastWord_after hsilent, lastWord_spoken hword]

/-- Something was said, and so there is a last word. -/
theorem lastWord_ne_none (h : word before a = some b) (after : List α) :
    lastWord word (after ++ a :: before) ≠ none := by
  induction after with
  | nil =>
    rw [List.nil_append, lastWord_spoken h]
    exact Option.some_ne_none b
  | cons c after ih =>
    rw [List.cons_append]
    cases hsaid : word (after ++ a :: before) c with
    | some d =>
      rw [lastWord_spoken hsaid]
      exact Option.some_ne_none d
    | none =>
      rw [lastWord_silent hsaid]
      exact ih

theorem lastWord_map (f : β → γ) (history : List α) :
    lastWord (fun before a => (word before a).map f) history = (lastWord word history).map f := by
  induction history with
  | nil => rfl
  | cons a before ih =>
    rw [lastWord, lastWord, ih]
    cases word before a with
    | none => rfl
    | some b => rfl

end Words

/-! ## Registers -/

/-- The register holds the last word, or what it was set to at first. -/
def Records (word : List α → α → Option β) (history : List α) (first held : β) : Prop :=
  held = (lastWord word history).getD first

variable {word : List α → α → Option β} {history : List α} {first held held' : β} {a : α} {b : β}

theorem records_nil : Records word [] first first := rfl

/-- The event writes what it says. -/
theorem Records.write (h : word history a = some b) : Records word (a :: history) first b := by
  rw [Records, lastWord_spoken h, Option.getD_some]

/-- The event leaves the register alone. -/
theorem Records.keep (hr : Records word history first held) (h : word history a = none) :
    Records word (a :: history) first held := by
  rw [Records, lastWord_silent h]
  exact hr

/-- **One event**: the register gets what it says, if it says something. -/
theorem Records.step (hr : Records word history first held)
    (h : held' = (word history a).getD held) :
    Records word (a :: history) first held' := by
  cases hword : word history a with
  | some b =>
    rw [hword, Option.getD_some] at h
    exact h ▸ Records.write hword
  | none =>
    rw [hword, Option.getD_none] at h
    exact h ▸ hr.keep hword

/-! ## The first time -/

/-- Whether something like this has happened. -/
def happened (p : α → Prop) [DecidablePred p] (history : List α) : Bool :=
  history.any fun a => decide (p a)

variable {p : α → Prop} [DecidablePred p]

@[simp] theorem happened_nil : happened p [] = false := rfl

@[simp] theorem happened_cons : happened p (a :: history) = (decide (p a) || happened p history) :=
  rfl

theorem happened_iff : happened p history = true ↔ ∃ a ∈ history, p a := by
  rw [happened, List.any_eq_true]
  exact exists_congr fun a => and_congr_right fun _ => decide_eq_true_iff

/-- A flag that is set when something like this happens and never cleared. -/
theorem flag_step {flag flag' : Bool} (h : flag = happened p history)
    (hs : flag' = (decide (p a) || flag)) :
    flag' = happened p (a :: history) := by
  rw [hs, h, happened_cons]

end LastWord
