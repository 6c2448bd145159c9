import PicoBLE.Lib.LTS

/-!
# Call stacks

What is in progress is a stack of frames. Only the innermost takes turns: each
leaves other frames in its place, none if it returns, and what is below stays
where it is. So the frames of a stack run one after another, and what a call
does can be said without the stack below it (`Returns`). A loop that is a frame
which calls something and then comes back to itself is a `Loop` of what it
calls.

Both come with their rules: how calls compose, what a system whose steps are
such turns has to do with them (`Drives`), and the rules of partial correctness
(`Triple`).
-/

/-- The turns of frames: from a state, to a state and the frames left in place of the one. -/
structure CallStack (σ φ : Type) where
  turn : φ → σ → σ → List φ → Prop

namespace CallStack

section Calls

variable {σ φ : Type} {M : CallStack σ φ}

/-- The frames run and all of them return. -/
inductive Returns (M : CallStack σ φ) : List φ → σ → σ → Prop where
  | nil (s : σ) : Returns M [] s s
  | turn {f : φ} {push fs : List φ} {s s₁ s' : σ} : M.turn f s s₁ push →
      Returns M (push ++ fs) s₁ s' → Returns M (f :: fs) s s'

theorem returns_nil {s s' : σ} : M.Returns [] s s' ↔ s' = s := by
  constructor
  · rintro ⟨⟩
    rfl
  · rintro rfl
    exact .nil s'

/-- **Frames run one after another.** -/
theorem returns_append {fs gs : List φ} {s s' : σ} :
    M.Returns (fs ++ gs) s s' ↔ ∃ m, M.Returns fs s m ∧ M.Returns gs m s' := by
  constructor
  · intro h
    generalize hall : fs ++ gs = all at h
    induction h generalizing fs with
    | nil s =>
      obtain ⟨rfl, rfl⟩ := List.append_eq_nil_iff.mp hall
      exact ⟨s, .nil s, .nil s⟩
    | @turn f push rest s s₁ s' hturn hrest ih =>
      cases fs with
      | nil =>
        obtain rfl : gs = f :: rest := hall
        exact ⟨s, .nil s, .turn hturn hrest⟩
      | cons g fs =>
        obtain ⟨rfl, rfl⟩ := List.cons.inj hall
        obtain ⟨m, hfs, hgs⟩ := ih (List.append_assoc push fs gs)
        exact ⟨m, .turn hturn hfs, hgs⟩
  · rintro ⟨m, hfs, hgs⟩
    induction hfs with
    | nil => exact hgs
    | @turn f push fs s s₁ s' hturn _ ih =>
      exact .turn hturn (List.append_assoc push fs gs ▸ ih hgs)

theorem returns_cons {f : φ} {fs : List φ} {s s' : σ} :
    M.Returns (f :: fs) s s' ↔ ∃ m, M.Returns [f] s m ∧ M.Returns fs m s' :=
  @returns_append σ φ M [f] fs s s'

/-- A frame takes its turn, and then what it has left in its place runs. -/
theorem returns_frame {f : φ} {s s' : σ} :
    M.Returns [f] s s' ↔ ∃ s₁ push, M.turn f s s₁ push ∧ M.Returns push s₁ s' := by
  constructor
  · rintro (_ | ⟨hturn, hrest⟩)
    rw [List.append_nil] at hrest
    exact ⟨_, _, hturn, hrest⟩
  · rintro ⟨s₁, push, hturn, hrest⟩
    exact .turn hturn ((List.append_nil push).symm ▸ hrest)

/-- The steps of a system that meet a condition are the turns of the innermost frame of its
stack. -/
structure Drives {τ α : Type} (L : LTS τ α) (ok : α → Prop) (M : CallStack σ φ) (state : τ → σ)
    (stack : τ → List φ) : Prop where
  /-- A step is a turn. -/
  turns {m m' : τ} {a : α} {f : φ} {below : List φ} (hstack : stack m = f :: below) (ha : ok a)
    (hs : L.step m a m') : ∃ push, stack m' = push ++ below ∧ M.turn f (state m) (state m') push
  /-- A turn is a step. -/
  steps {m : τ} {f : φ} {push below : List φ} {s' : σ} (hstack : stack m = f :: below)
    (ht : M.turn f (state m) s' push) :
    ∃ a m', ok a ∧ L.step m a m' ∧ stack m' = push ++ below ∧ state m' = s'

section Driven

variable {τ α : Type} {L : LTS τ α} {ok : α → Prop} {state : τ → σ} {stack : τ → List φ}

/-- A run above some frames, up to where they are all that is left, is a call. -/
theorem Drives.returns (h : Drives L ok M state stack) {below fs : List φ} {m m' : τ} {as : List α}
    (hrun : L.Runs (fun m a => below.length < (stack m).length ∧ ok a) m as m')
    (hstack : stack m = fs ++ below) (hend : stack m' = below) :
    M.Returns fs (state m) (state m') := by
  induction hrun generalizing fs with
  | nil m =>
    obtain rfl : fs = [] := List.self_eq_append_left.mp (hend.symm.trans hstack)
    exact .nil _
  | @cons m m₁ m' a as ha hs _ ih =>
    cases fs with
    | nil =>
      rw [hstack, List.nil_append] at ha
      exact absurd ha.1 (Nat.lt_irrefl _)
    | cons f fs =>
      obtain ⟨push, hpush, hturn⟩ := h.turns hstack ha.2 hs
      exact .turn hturn (ih (hpush.trans (List.append_assoc push fs below).symm) hend)

/-- Every call is such a run. -/
theorem Drives.runs (h : Drives L ok M state stack) {below fs : List φ} {s s' : σ}
    (hret : M.Returns fs s s') {m : τ} (hstack : stack m = fs ++ below) (hstate : state m = s) :
    ∃ as m', L.Runs (fun m a => below.length < (stack m).length ∧ ok a) m as m' ∧ stack m' = below ∧
      state m' = s' := by
  induction hret generalizing m with
  | nil s => exact ⟨[], m, .nil m, hstack, hstate⟩
  | @turn f push fs s s₁ s' hturn _ ih =>
    subst hstate
    obtain ⟨a, m₁, ha, hs, hpush, hstate₁⟩ := h.steps hstack hturn
    obtain ⟨as, m', hruns, hend⟩ := ih (hpush.trans (List.append_assoc push fs below).symm) hstate₁
    refine ⟨a :: as, m', .cons ⟨?_, ha⟩ hs hruns, hend⟩
    rw [hstack, List.length_append, List.length_cons]
    omega

end Driven

end Calls

/-! ## Bounded loops -/

section Loops

variable {σ ρ : Type}

/-- At most `n` turns, each of which goes on or leaves with a result, and `last` behind all of
them. -/
inductive Loop (turn : σ → Option ρ → σ → Prop) (last : ρ) : Nat → σ → ρ → σ → Prop where
  | out (s : σ) : Loop turn last 0 s last s
  | leave {n : Nat} {s s' : σ} {r : ρ} : turn s (some r) s' → Loop turn last (n + 1) s r s'
  | next {n : Nat} {s s₁ s' : σ} {r : ρ} : turn s none s₁ → Loop turn last n s₁ r s' →
      Loop turn last (n + 1) s r s'

variable {turn : σ → Option ρ → σ → Prop} {last : ρ}

theorem loop_zero {s s' : σ} {r : ρ} : Loop turn last 0 s r s' ↔ r = last ∧ s' = s := by
  constructor
  · rintro ⟨⟩
    exact ⟨rfl, rfl⟩
  · rintro ⟨rfl, rfl⟩
    exact .out s'

theorem loop_succ {n : Nat} {s s' : σ} {r : ρ} : Loop turn last (n + 1) s r s' ↔
    turn s (some r) s' ∨ ∃ m, turn s none m ∧ Loop turn last n m r s' := by
  constructor
  · rintro (_ | hleave | ⟨hturn, hrest⟩)
    · exact .inl hleave
    · exact .inr ⟨_, hturn, hrest⟩
  · rintro (hleave | ⟨m, hturn, hrest⟩)
    · exact .leave hleave
    · exact .next hturn hrest

/-- **What unrolls like a loop is one**: turn `i` of `n` is made if there is one. -/
theorem loop_of_unroll {R : Nat → σ → ρ → σ → Prop} {n : Nat}
    (hout : ∀ i s r s', n ≤ i → (R i s r s' ↔ r = last ∧ s' = s))
    (hin : ∀ i s r s', i < n → (R i s r s' ↔ turn s (some r) s' ∨ ∃ m, turn s none m ∧
      R (i + 1) m r s'))
    {i : Nat} {s s' : σ} {r : ρ} : R i s r s' ↔ Loop turn last (n - i) s r s' := by
  generalize hk : n - i = k
  induction k generalizing i s with
  | zero => rw [hout i s r s' (by omega), loop_zero]
  | succ k ih =>
    rw [hin i s r s' (by omega), loop_succ]
    have hnext : ∀ m, R (i + 1) m r s' ↔ Loop turn last k m r s' := fun m => ih (by omega)
    simp only [hnext]

/-- From any state that meets `P`, with any result, a relation leads to one that meets `Q`. -/
def Triple (P : σ → Prop) (R : σ → ρ → σ → Prop) (Q : ρ → σ → Prop) : Prop :=
  ∀ s r s', P s → R s r s' → Q r s'

/-- **The rule of the loop**, with an invariant that counts the turns left. -/
theorem Loop.triple {I : Nat → σ → Prop} {Q : ρ → σ → Prop}
    (hturn : ∀ k, Triple (I (k + 1)) turn fun o s => o.elim (I k s) fun r => Q r s)
    (hout : ∀ s, I 0 s → Q last s) (n : Nat) : Triple (I n) (Loop turn last n) Q := by
  intro s r s' hs hloop
  induction hloop with
  | out s => exact hout s hs
  | leave h => exact hturn _ _ _ _ hs h
  | next h _ ih => exact ih (hturn _ _ _ _ hs h)

/-- Wherever a relation starts among the states that come from others, it does to these what
another does. -/
def Embeds {τ : Type} (g : τ → σ) (R : σ → ρ → σ → Prop) (R' : τ → ρ → τ → Prop) : Prop :=
  ∀ t r s', R (g t) r s' ↔ ∃ t', R' t r t' ∧ s' = g t'

/-- **So does a loop of it.** -/
theorem Loop.embeds {τ : Type} {g : τ → σ} {turn' : τ → Option ρ → τ → Prop}
    (h : Embeds g turn turn') (n : Nat) :
    Embeds g (Loop turn last n) (Loop turn' last n) := by
  intro t r s'
  induction n generalizing t with
  | zero =>
    simp only [loop_zero]
    constructor
    · rintro ⟨rfl, rfl⟩
      exact ⟨t, ⟨rfl, rfl⟩, rfl⟩
    · rintro ⟨t', ⟨rfl, rfl⟩, rfl⟩
      exact ⟨rfl, rfl⟩
  | succ n ih =>
    simp only [loop_succ, h t]
    constructor
    · rintro (⟨t', hleave, rfl⟩ | ⟨_, ⟨t₁, hgo, rfl⟩, hrest⟩)
      · exact ⟨t', .inl hleave, rfl⟩
      · obtain ⟨t', hrest', rfl⟩ := (ih t₁).mp hrest
        exact ⟨t', .inr ⟨t₁, hgo, hrest'⟩, rfl⟩
    · rintro ⟨t', hleave | ⟨t₁, hgo, hrest⟩, rfl⟩
      · exact .inl ⟨t', hleave, rfl⟩
      · exact .inr ⟨g t₁, ⟨t₁, hgo, rfl⟩, (ih t₁).mpr ⟨t', hrest, rfl⟩⟩

end Loops

end CallStack
