import Mathlib.Tactic.Common

/-!
# Labelled transition systems

The runs of a system, with a condition on the steps they take. A result about
"every run whose steps all meet a condition" is an invariant of
`ReachableWhen`, and a result about every run is the special case where the
condition is always met.
-/

/-- States, initial states and labelled steps. -/
structure LTS (σ α : Type) where
  /-- Where runs start. -/
  init : σ → Prop
  /-- One step. -/
  step : σ → α → σ → Prop

namespace LTS

variable {σ α : Type}

/-- The system whose steps are the defined values of a function. -/
def ofFun (init : σ → Prop) (next : σ → α → Option σ) : LTS σ α where
  init := init
  step s a s' := next s a = some s'

/-- States reached by a run in which every step meets `ok`, a condition on the
state before the step and its label. -/
inductive ReachableWhen (M : LTS σ α) (ok : σ → α → Prop) : σ → Prop where
  | init {s : σ} : M.init s → ReachableWhen M ok s
  | tail {s s' : σ} {a : α} : ReachableWhen M ok s → ok s a → M.step s a s' →
      ReachableWhen M ok s'

/-- States reached by any run. -/
def Reachable (M : LTS σ α) : σ → Prop := M.ReachableWhen fun _ _ => True

/-- **The invariant rule.** What holds initially and is kept by every permitted
step holds wherever such steps lead. -/
theorem ReachableWhen.inv {M : LTS σ α} {ok : σ → α → Prop} {P : σ → Prop} {s : σ}
    (h : M.ReachableWhen ok s) (hi : ∀ s, M.init s → P s)
    (hs : ∀ s a s', P s → ok s a → M.step s a s' → P s') : P s := by
  induction h with
  | init h => exact hi _ h
  | tail _ hok hstep ih => exact hs _ _ _ ih hok hstep

/-- A weaker condition on the steps reaches more. -/
theorem ReachableWhen.mono {M : LTS σ α} {ok ok' : σ → α → Prop} {s : σ}
    (h : M.ReachableWhen ok s) (hle : ∀ s a, ok s a → ok' s a) : M.ReachableWhen ok' s := by
  induction h with
  | init h => exact .init h
  | tail _ hok hstep ih => exact .tail ih (hle _ _ hok) hstep

theorem ReachableWhen.reachable {M : LTS σ α} {ok : σ → α → Prop} {s : σ}
    (h : M.ReachableWhen ok s) : M.Reachable s :=
  h.mono fun _ _ _ => trivial

/-- One more step of any run. -/
theorem Reachable.tail {M : LTS σ α} {s s' : σ} {a : α}
    (h : M.Reachable s) (hs : M.step s a s') : M.Reachable s' :=
  ReachableWhen.tail h trivial hs

/-! ## Runs with their labels -/

/-- A run through the given labels, in which every step meets `ok`. -/
inductive Runs (M : LTS σ α) (ok : σ → α → Prop) : σ → List α → σ → Prop where
  | nil (s : σ) : Runs M ok s [] s
  | cons {s s' s'' : σ} {a : α} {as : List α} : ok s a → M.step s a s' → Runs M ok s' as s'' →
      Runs M ok s (a :: as) s''

theorem Runs.append {M : LTS σ α} {ok : σ → α → Prop} {s s' s'' : σ} {as bs : List α}
    (h : M.Runs ok s as s') (h' : M.Runs ok s' bs s'') : M.Runs ok s (as ++ bs) s'' := by
  induction h with
  | nil => exact h'
  | cons hok hstep _ ih => exact .cons hok hstep (ih h')

theorem Runs.reachableWhen {M : LTS σ α} {ok : σ → α → Prop} {s s' : σ} {as : List α}
    (h : M.Runs ok s as s') (hs : M.ReachableWhen ok s) : M.ReachableWhen ok s' := by
  induction h with
  | nil => exact hs
  | cons hok hstep _ ih => exact ih (hs.tail hok hstep)

theorem Runs.mono {M : LTS σ α} {ok ok' : σ → α → Prop} {s s' : σ} {as : List α}
    (h : M.Runs ok s as s') (hle : ∀ s a, ok s a → ok' s a) : M.Runs ok' s as s' := by
  induction h with
  | nil => exact .nil _
  | cons hok hstep _ ih => exact .cons (hle _ _ hok) hstep ih

/-! ## Executing a run -/

/-- Take the steps of a step function, as long as they meet `ok`. -/
def exec (next : σ → α → Option σ) (ok : σ → α → Prop) [∀ s a, Decidable (ok s a)] :
    σ → List α → Option σ
  | s, [] => some s
  | s, a :: as => if ok s a then (next s a).bind fun s' => exec next ok s' as else none

theorem exec_append {next : σ → α → Option σ} {ok : σ → α → Prop}
    [∀ s a, Decidable (ok s a)] {s s' s'' : σ} {as bs : List α}
    (h : exec next ok s as = some s') (h' : exec next ok s' bs = some s'') :
    exec next ok s (as ++ bs) = some s'' := by
  induction as generalizing s with
  | nil => rw [Option.some.inj h]; exact h'
  | cons a as ih =>
    rw [exec] at h
    rw [List.cons_append, exec]
    split at h
    · next hok =>
      obtain ⟨s₁, hs, h⟩ := Option.bind_eq_some_iff.mp h
      rw [if_pos hok, hs]
      exact ih h
    · exact absurd h (by simp)

/-- What is executed is a run. -/
theorem runs_exec {init : σ → Prop} {next : σ → α → Option σ} {ok : σ → α → Prop}
    [∀ s a, Decidable (ok s a)] {s s' : σ} {as : List α} (h : exec next ok s as = some s') :
    (ofFun init next).Runs ok s as s' := by
  induction as generalizing s with
  | nil => rw [← Option.some.inj h]; exact .nil s
  | cons a as ih =>
    rw [exec] at h
    split at h
    · next hok =>
      obtain ⟨s₁, hs, h⟩ := Option.bind_eq_some_iff.mp h
      exact .cons hok hs (ih h)
    · exact absurd h (by simp)

end LTS
