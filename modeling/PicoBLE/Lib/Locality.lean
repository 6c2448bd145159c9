import Mathlib.Data.Set.Function

/-!
# Actions on a part of a memory

An action takes a state, leaves another and returns something. It is local to a
part of the memory if that part settles what the action returns and what it
leaves in the part. Run on two states that agree there, a local action cannot
tell them apart, and it leaves them in agreement; what the rest of the memory
holds, and who else has been writing to it, does not matter.
-/

namespace Locality

variable {σ A B ρ : Type}

/-- The part `R` of the memory settles what `act` returns and what it leaves in `R`. -/
def Local (mem : σ → A → B) (R : Set A) (act : σ → σ × ρ) : Prop :=
  ∀ s t, Set.EqOn (mem s) (mem t) R →
    (act s).2 = (act t).2 ∧ Set.EqOn (mem (act s).1) (mem (act t).1) R

variable {mem : σ → A → B} {R : Set A}

theorem local_pure (r : ρ) : Local mem R fun s => (s, r) := fun _ _ h => ⟨rfl, h⟩

/-- Run on states that agree, the action returns one thing and leaves states that agree. -/
theorem Local.both {act : σ → σ × ρ} (h : Local mem R act) {s t : σ}
    (hst : Set.EqOn (mem s) (mem t) R) :
    ∃ s' t' r, act s = (s', r) ∧ act t = (t', r) ∧ Set.EqOn (mem s') (mem t') R := by
  obtain ⟨hr, hmem⟩ := h s t hst
  exact ⟨_, _, _, rfl, Prod.ext rfl hr.symm, hmem⟩

end Locality
