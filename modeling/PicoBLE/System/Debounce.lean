import PicoBLE.System.BindingEvents

/-!
# Debouncing, in true time

`gpio_irq_cb` compares the milliseconds since boot with those of the last edge
that it accepted. Both are 32 bits, so what it sees of the time between them is
what is left of it modulo 2^32. And `bindings_add` puts a 0 where there has been
no edge yet: as if there had been one at boot.

The clock here is not bounded. With each slot goes the time of the last edge
that has been accepted for its binding, if there is one, and every edge of a
binding is put on record with what became of it.
-/

namespace PicoBLE.System

/-! ## Interrupts with their times -/

/-- An interrupt at a time, or a turn of something else. -/
inductive TimedTurn where
  | irq (gpio : Nat) (events : Finset Edge) (ms : Nat)
  | turn (a : Turn)

/-- An edge of a binding: when it came, when the last one had been accepted, if one had, and
whether this one was. -/
structure Judged where
  debounceMs : Nat
  last : Option Nat
  ms : Nat
  accepted : Bool
deriving DecidableEq

/-- The bindings, the time of the last interrupt, those of the last accepted edges, and the
record. -/
structure TimedBindings where
  b : Bindings
  ms : Nat
  last : Fin bindSlotCount → Option Nat
  judged : List Judged

/-- The slot that a turn puts a new binding into. -/
def Bindings.installs (b : Bindings) : Turn → Option (Fin bindSlotCount)
  | .add pin edge buf debounceMs =>
    if (b.add pin edge (CString.ofBuffer buf) debounceMs).2 then addSlot pin b.slots else none
  | _ => none

/-- The edge is one that the slot's binding is for. -/
def BindSlot.concerns (s : BindSlot) (gpio : Nat) (events : Finset Edge) : Bool :=
  s.used && (s.pin.toNat = gpio) && s.isFor events

/-- What becomes of an edge. -/
def TimedBindings.judge (w : TimedBindings) (gpio : Nat) (events : Finset Edge) (ms : Nat)
    (i : Fin bindSlotCount) : Judged where
  debounceMs := (w.b.slots i).debounceMs.toNat
  last := w.last i
  ms := ms
  accepted := (w.b.slots i).accepts gpio events (UInt32.ofNat ms)

/-- Time does not go backwards. An interrupt is told `to_ms_since_boot`, which is 32 bits. -/
def TimedBindings.next (w : TimedBindings) : TimedTurn → Option TimedBindings
  | .irq gpio events ms =>
    if w.ms ≤ ms then
      some
        { b := w.b.turn (.irq gpio events (UInt32.ofNat ms))
          ms := ms
          last := fun i => if (w.b.slots i).accepts gpio events (UInt32.ofNat ms) then
            some ms else w.last i
          judged := w.judged ++
            (bindSlots.filter fun i => (w.b.slots i).concerns gpio events).map
              (w.judge gpio events ms) }
    else none
  | .turn (.irq _ _ _) => none
  | .turn a =>
    some { w with
      b := w.b.turn a
      last := fun i => if w.b.installs a = some i then none else w.last i }

/-- All orders of interrupts and other turns. -/
def timedBindings : LTS TimedBindings TimedTurn :=
  LTS.ofFun (fun w => w.b = .zero ∧ (w.last = fun _ => none) ∧ w.judged = []) TimedBindings.next

/-- The edge is to be accepted: there has been none, or it was long enough ago. -/
def Judged.Due (j : Judged) : Prop := ∀ before ∈ j.last, before + j.debounceMs ≤ j.ms

/-- The 32 bits tell that it is, if it is. -/
def Judged.Tells (j : Judged) : Prop :=
  match j.last with
  | none => j.debounceMs ≤ j.ms % 2 ^ 32
  | some before => j.ms - before < j.debounceMs ∨ j.debounceMs ≤ (j.ms - before) % 2 ^ 32

variable {w : TimedBindings} {i : Fin bindSlotCount}

/-! ## What a slot knows -/

/-- A used slot has what 32 bits hold of the time of its last edge, or 0. -/
structure Stamped (s : BindSlot) (last : Option Nat) (ms : Nat) : Prop where
  stamp : s.used = true → s.lastFiredMs = last.elim 0 UInt32.ofNat
  past : ∀ before ∈ last, before ≤ ms

/-- A binding that is put into a slot starts with a 0. -/
theorem installs_some {b : Bindings} {a : Turn} (h : b.installs a = some i) :
    ((b.turn a).slots i).lastFiredMs = 0 := by
  cases a with
  | add pin edge buf debounceMs =>
    rw [Bindings.installs] at h
    rw [Bindings.turn]
    rcases b.add_cases pin edge (CString.ofBuffer buf) debounceMs with ⟨he, -⟩
      | ⟨j, -, -, -, hslot, he⟩
    · rw [he, if_neg Bool.false_ne_true] at h
      exact absurd h (by simp)
    · rw [he, if_pos rfl, hslot] at h
      obtain rfl := Option.some.inj h
      rw [he, Bindings.refreshPinIrq_slots]
      dsimp only
      rw [Function.update_self]
      rfl
  | _ => exact absurd h (by simp [Bindings.installs])

/-- A slot that is written without its stamp. -/
theorem update_stamp {b : Bindings} {j : Fin bindSlotCount} {s : BindSlot}
    (hused : s.used = true → (b.slots j).used = true) (hstamp : s.lastFiredMs =
      (b.slots j).lastFiredMs) (hi : (Function.update b.slots j s i).used = true) :
    (b.slots i).used = true ∧
    (Function.update b.slots j s i).lastFiredMs = (b.slots i).lastFiredMs := by
  by_cases hij : i = j
  · subst hij
    rw [Function.update_self] at hi ⊢
    exact ⟨hused hi, hstamp⟩
  · rw [Function.update_of_ne hij] at hi ⊢
    exact ⟨hi, rfl⟩

/-- Nothing else but an interrupt touches the stamp of a binding. -/
theorem turn_stamp {b : Bindings} {a : Turn} (hirq : ∀ gpio events now, a ≠ .irq gpio events now)
    (h : b.installs a ≠ some i) (hi : ((b.turn a).slots i).used = true) :
    (b.slots i).used = true ∧ ((b.turn a).slots i).lastFiredMs = (b.slots i).lastFiredMs := by
  have hdrop : ∀ j, ((b.drop j).slots i).used = true →
      (b.slots i).used = true ∧ ((b.drop j).slots i).lastFiredMs = (b.slots i).lastFiredMs :=
    fun j => update_stamp (fun hused => absurd hused Bool.false_ne_true) rfl
  cases a with
  | irq gpio events now => exact absurd rfl (hirq gpio events now)
  | add pin edge buf debounceMs =>
    rw [Bindings.installs] at h
    rw [Bindings.turn] at hi ⊢
    rcases b.add_cases pin edge (CString.ofBuffer buf) debounceMs with ⟨he, -⟩
      | ⟨j, -, -, -, hslot, he⟩
    · rw [he] at hi ⊢
      exact ⟨hi, rfl⟩
    · rw [he, if_pos rfl, hslot] at h
      have hij : i ≠ j := fun hij => h (congrArg some hij.symm)
      rw [he, Bindings.refreshPinIrq_slots] at hi ⊢
      dsimp only at hi ⊢
      rw [Function.update_of_ne hij] at hi ⊢
      exact ⟨hi, rfl⟩
  | remove pin =>
    rw [Bindings.turn] at hi ⊢
    rcases b.remove_cases pin with ⟨he, -⟩ | ⟨j, -, -, he⟩
    · rw [he] at hi ⊢
      exact ⟨hi, rfl⟩
    · rw [he, Bindings.refreshPinIrq_slots] at hi ⊢
      exact hdrop j hi
  | clear j =>
    rw [Bindings.turn, Bindings.clear] at hi ⊢
    by_cases hused : (b.slots j).used = true
    · rw [if_pos hused, Bindings.refreshPinIrq_slots] at hi ⊢
      exact hdrop j hi
    · rw [if_neg hused] at hi ⊢
      exact ⟨hi, rfl⟩
  | drop j => exact hdrop j hi
  | visit j =>
    rw [Bindings.turn, Bindings.visit] at hi ⊢
    by_cases hdue : ((b.slots j).used && (b.slots j).pending) = true
    · rw [if_pos hdue] at hi ⊢
      exact update_stamp (fun _ => (Bool.and_eq_true_iff.mp hdue).1) rfl hi
    · rw [if_neg hdue] at hi ⊢
      exact ⟨hi, rfl⟩

theorem Stamped.turn {a : Turn} (hirq : ∀ gpio events now, a ≠ .irq gpio events now)
    (h : Stamped (w.b.slots i) (w.last i) w.ms) :
    Stamped ((w.b.turn a).slots i) (if w.b.installs a = some i then none else w.last i) w.ms := by
  by_cases hinstall : w.b.installs a = some i
  · rw [if_pos hinstall]
    exact ⟨fun _ => installs_some hinstall, fun _ hnone => absurd hnone (by simp)⟩
  · rw [if_neg hinstall]
    refine ⟨fun hi => ?_, h.past⟩
    obtain ⟨hused, hsame⟩ := turn_stamp hirq hinstall hi
    rw [hsame]
    exact h.stamp hused

theorem next_turn {a : Turn} {w' : TimedBindings} (hs : w.next (.turn a) = some w') :
    (∀ gpio events now, a ≠ .irq gpio events now) ∧
      w' = { w with
        b := w.b.turn a
        last := fun i => if w.b.installs a = some i then none else w.last i } := by
  cases a with
  | irq gpio events now => exact absurd hs (by simp [TimedBindings.next])
  | _ => exact ⟨fun _ _ _ => by simp, (Option.some.inj hs).symm⟩

theorem stamped_next {e : TimedTurn} {w' : TimedBindings}
    (h : ∀ i, Stamped (w.b.slots i) (w.last i) w.ms) (hs : w.next e = some w') :
    ∀ i, Stamped (w'.b.slots i) (w'.last i) w'.ms := by
  intro i
  cases e with
  | irq gpio events ms =>
    rw [TimedBindings.next] at hs
    split at hs
    · next hms =>
      obtain rfl := Option.some.inj hs
      dsimp only [Bindings.turn, Bindings.gpioIrqCb]
      split
      · exact ⟨fun _ => rfl, fun before hbefore => Nat.le_of_eq (Option.some.inj hbefore).symm⟩
      · exact ⟨(h i).stamp, fun before hbefore => Nat.le_trans ((h i).past before hbefore) hms⟩
    · exact absurd hs (by simp)
  | turn a =>
    obtain ⟨hirq, rfl⟩ := next_turn hs
    exact (h i).turn hirq

/-! ## The comparison -/

/-- The difference of two clock readings is that of the times, modulo 2^32. -/
theorem toNat_ofNat_sub {before ms : Nat} (h : before ≤ ms) :
    (UInt32.ofNat ms - UInt32.ofNat before).toNat = (ms - before) % 2 ^ 32 := by
  rw [UInt32.toNat_sub, UInt32.toNat_ofNat', UInt32.toNat_ofNat']
  omega

/-- What a slot asks of an edge of its own. -/
theorem accepts_iff {s : BindSlot} {gpio : Nat} {events : Finset Edge} {now : UInt32}
    (h : s.concerns gpio events = true) :
    s.accepts gpio events now = true ↔ s.debounceMs.toNat ≤ (now - s.lastFiredMs).toNat := by
  have hsplit : s.accepts gpio events now =
      (s.concerns gpio events && !(0 < s.debounceMs && now - s.lastFiredMs < s.debounceMs)) := rfl
  rw [hsplit, h]
  simp only [Bool.true_and, Bool.not_eq_true', Bool.and_eq_false_iff, decide_eq_false_iff_not,
    UInt32.lt_iff_toNat_lt, UInt32.toNat_zero]
  omega

/-- One interrupt. -/
theorem judge_exact (h : Stamped (w.b.slots i) (w.last i) w.ms) {ms gpio : Nat}
    {events : Finset Edge} (hms : w.ms ≤ ms) (hfor : (w.b.slots i).concerns gpio events = true) :
    ((w.judge gpio events ms i).accepted = true ↔ (w.judge gpio events ms i).Due) ↔
      (w.judge gpio events ms i).Tells := by
  have hused : (w.b.slots i).used = true :=
    (Bool.and_eq_true_iff.mp (Bool.and_eq_true_iff.mp hfor).1).1
  unfold Judged.Due Judged.Tells TimedBindings.judge
  dsimp only
  rw [accepts_iff hfor, h.stamp hused]
  cases hlast : w.last i with
  | none =>
    have hdue : ∀ before ∈ (none : Option Nat), before + (w.b.slots i).debounceMs.toNat ≤ ms :=
      fun _ hnone => absurd hnone (by simp)
    have hnow : (UInt32.ofNat ms - 0).toNat = ms % 2 ^ 32 := by
      rw [UInt32.sub_zero, UInt32.toNat_ofNat']
    show ((w.b.slots i).debounceMs.toNat ≤ (UInt32.ofNat ms - 0).toNat ↔ _) ↔ _
    rw [hnow, iff_true_intro hdue, iff_true]
  | some before =>
    have hpast : before ≤ w.ms := h.past before hlast
    have hmod := Nat.mod_le (ms - before) (2 ^ 32)
    show ((w.b.slots i).debounceMs.toNat ≤ (UInt32.ofNat ms - UInt32.ofNat before).toNat ↔ _) ↔ _
    rw [toNat_ofNat_sub (Nat.le_trans hpast hms)]
    simp only [Option.mem_some_iff, forall_eq']
    omega

theorem judged_next {e : TimedTurn} {w' : TimedBindings}
    (h : ∀ i, Stamped (w.b.slots i) (w.last i) w.ms) (hs : w.next e = some w') {j : Judged}
    (hj : j ∈ w'.judged) :
    j ∈ w.judged ∨ ((j.accepted = true ↔ j.Due) ↔ j.Tells) := by
  cases e with
  | irq gpio events ms =>
    rw [TimedBindings.next] at hs
    split at hs
    · next hms =>
      obtain rfl := Option.some.inj hs
      rcases List.mem_append.mp hj with hold | hnew
      · exact .inl hold
      · obtain ⟨i, hi, rfl⟩ := List.mem_map.mp hnew
        exact .inr (judge_exact (h i) hms (List.mem_filter.mp hi).2)
    · exact absurd hs (by simp)
  | turn a =>
    obtain ⟨-, rfl⟩ := next_turn hs
    exact .inl hj

/-- **Debouncing.** In every run, an edge of a binding was accepted exactly if it was due, as long
as the 32 bits told; and if they did not, it was not: an edge that was due was dropped. -/
theorem debounce_exact (h : timedBindings.Reachable w) {j : Judged} (hj : j ∈ w.judged) :
    (j.accepted = true ↔ j.Due) ↔ j.Tells := by
  have hall : (∀ i, Stamped (w.b.slots i) (w.last i) w.ms) ∧
      ∀ j ∈ w.judged, (j.accepted = true ↔ j.Due) ↔ j.Tells := by
    refine LTS.ReachableWhen.inv (P := fun w => (∀ i, Stamped (w.b.slots i) (w.last i) w.ms) ∧
      ∀ j ∈ w.judged, (j.accepted = true ↔ j.Due) ↔ j.Tells) h ?_ fun w e w' hinv _ hs => ?_
    · rintro w ⟨hb, hlast, hjudged⟩
      rw [hb, hlast, hjudged]
      exact ⟨fun i => ⟨fun hused => absurd hused Bool.false_ne_true, fun _ hnone =>
        absurd hnone (by simp)⟩, fun j hj => absurd hj List.not_mem_nil⟩
    · refine ⟨stamped_next hinv.1 hs, fun j hj => ?_⟩
      exact (judged_next hinv.1 hs hj).elim (hinv.2 j) id
  exact hall.2 j hj

/-- Pin 2 is bound at start and debounced for 20 ms, and there is one edge. -/
def pressing (ms : Nat) : Option TimedBindings :=
  LTS.exec TimedBindings.next (fun _ _ => True)
    { b := .zero, ms := 0, last := fun _ => none, judged := [] }
    [.turn (.add 2 bindEdgeHigh (CString.ascii "led on") 20), .irq 2 {.rise} ms]

theorem pressing_reachable {ms : Nat} {judged : List Judged}
    (h : (pressing ms).map TimedBindings.judged = some judged) :
    ∃ w, timedBindings.Reachable w ∧ w.judged = judged := by
  obtain ⟨w, hw, hjudged⟩ := Option.map_eq_some_iff.mp h
  exact ⟨w, (LTS.runs_exec hw).reachableWhen (.init ⟨rfl, rfl, rfl⟩), hjudged⟩

/-- 20 ms after boot it is accepted. -/
theorem pressing_exact : ∃ w j, timedBindings.Reachable w ∧ j ∈ w.judged ∧ j.accepted = true ∧
    ((j.accepted = true ↔ j.Due) ↔ j.Tells) := by
  obtain ⟨w, hw, hjudged⟩ := pressing_reachable (show (pressing 20).map TimedBindings.judged =
    some [{ debounceMs := 20, last := none, ms := 20, accepted := true }] by decide +kernel)
  have hj : { debounceMs := 20, last := none, ms := 20, accepted := true } ∈ w.judged := by
    rw [hjudged]
    exact List.mem_singleton_self _
  exact ⟨w, _, hw, hj, rfl, debounce_exact hw hj⟩

/-- 5 ms after boot it is the binding's first edge, and dropped. -/
theorem pressing_dropped : ∃ w j, timedBindings.Reachable w ∧ j ∈ w.judged ∧ j.last = none ∧
    j.accepted = false ∧ ¬ (j.accepted = true ↔ j.Due) := by
  obtain ⟨w, hw, hjudged⟩ := pressing_reachable (show (pressing 5).map TimedBindings.judged =
    some [{ debounceMs := 20, last := none, ms := 5, accepted := false }] by decide +kernel)
  have hj : { debounceMs := 20, last := none, ms := 5, accepted := false } ∈ w.judged := by
    rw [hjudged]
    exact List.mem_singleton_self _
  refine ⟨w, _, hw, hj, rfl, rfl, fun hiff => Bool.false_ne_true (hiff.mpr ?_)⟩
  exact fun _ hnone => absurd hnone (by simp)

end PicoBLE.System
