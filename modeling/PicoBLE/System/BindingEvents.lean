import PicoBLE.System.BindingOps

/-!
# Each accepted edge fires its own binding

`gpio_irq_cb` marks a slot, and `bindings_dispatch_pending` clears the mark
before it runs the target. In between the slot can be freed, filled again and
moved to another pin, and a slot that is freed keeps its mark. What makes up for
it is that `bindings_add` clears the mark of the slot it fills, and that a mark
on a free slot is not looked at.

A history is kept of what has happened to each slot, the newest first. An
interrupt can come between any two turns, also while a target runs, in
`bindings_load` and in `bindings_clear_all`. What it marks inside `bindings_add`
is unmarked by the last write there, so `bindings_add` is one turn.
-/

namespace PicoBLE.System

/-! ## The history -/

/-- What has happened. -/
inductive Mark where
  /-- A binding with this target has been put into the slot. -/
  | installed (i : Fin bindSlotCount) (target : List UInt8)
  /-- The slot has been freed. -/
  | removed (i : Fin bindSlotCount)
  /-- `gpio_irq_cb` has accepted an edge for the slot. -/
  | accepted (i : Fin bindSlotCount)
  /-- The target has been dispatched. -/
  | dispatched (i : Fin bindSlotCount)
deriving DecidableEq

def Mark.slot : Mark → Fin bindSlotCount
  | .installed i _ => i
  | .removed i => i
  | .accepted i => i
  | .dispatched i => i

/-- What a turn writes down. -/
def Bindings.marks (b : Bindings) : Turn → List Mark
  | .irq gpio events now =>
  (bindSlots.filter fun i => (b.slots i).accepts gpio events now).map .accepted
  | .add pin edge buf debounceMs =>
    if (b.add pin edge (CString.ofBuffer buf) debounceMs).2 then
      (addSlot pin b.slots).toList.map fun i => .installed i (CString.ofBuffer buf)
    else []
  | .remove pin => (findSlot pin b.slots).toList.map .removed
  | .clear i => if (b.slots i).used then [.removed i] else []
  | .drop i => if (b.slots i).used then [.removed i] else []
  | .visit i => if (b.visit i).2.isSome then [.dispatched i] else []

/-- The target of the binding that is in the slot. -/
def current (i : Fin bindSlotCount) : List Mark → Option (List UInt8)
  | [] => none
  | .installed j target :: h => if j = i then some target else current i h
  | .removed j :: h => if j = i then none else current i h
  | _ :: h => current i h

/-- After it, nothing is owed to the slot any more. -/
def Mark.settles (i : Fin bindSlotCount) : Mark → Bool
  | .installed j _ => j = i
  | .removed j => j = i
  | .dispatched j => j = i
  | .accepted _ => false

/-- An edge has been accepted for the slot since its binding was installed or last dispatched. -/
def Owed (i : Fin bindSlotCount) (h : List Mark) : Prop :=
  ∃ newer older, h = newer ++ .accepted i :: older ∧ ∀ m ∈ newer, m.settles i = false

/-- The bindings, and the history. -/
structure EventWorld where
  b : Bindings
  history : List Mark

def EventWorld.next (w : EventWorld) (a : Turn) : EventWorld :=
  { b := w.b.turn a, history := w.b.marks a ++ w.history }

/-- All orders of turns. Those of a call of `bindings_load` or `bindings_clear_all` are among
them. -/
def eventWorlds : LTS EventWorld Turn :=
  LTS.ofFun (· = { b := .zero, history := [] }) fun w a => some (w.next a)

variable {i : Fin bindSlotCount} {h : List Mark}

/-- Something that is no edge for the slot. -/
theorem owed_cons {m : Mark} (hm : m ≠ .accepted i) : Owed i (m :: h) ↔ m.settles i = false ∧
    Owed i h := by
  refine ⟨fun howed => ?_, fun hboth => ?_⟩
  · obtain ⟨newer, older, heq, hclean⟩ := howed
    cases newer with
    | nil => exact absurd (List.cons.inj heq).1 hm
    | cons m' newer =>
      obtain ⟨rfl, rfl⟩ := List.cons.inj heq
      exact ⟨hclean m List.mem_cons_self, newer, older, rfl, fun m' hm' =>
        hclean m' (List.mem_cons_of_mem _ hm')⟩
  · obtain ⟨hset, newer, older, rfl, hclean⟩ := hboth
    exact ⟨m :: newer, older, rfl, List.forall_mem_cons.mpr ⟨hset, hclean⟩⟩

theorem owed_accepted : Owed i (.accepted i :: h) :=
  ⟨[], h, rfl, fun _ hm => absurd hm List.not_mem_nil⟩

theorem not_owed_nil : ¬ Owed i [] := by
  rintro ⟨newer, older, heq, -⟩
  exact absurd heq (by simp)

/-- Edges for several slots. -/
theorem history_accepted (slots : List (Fin bindSlotCount)) :
    current i (slots.map .accepted ++ h) = current i h ∧
      (Owed i (slots.map .accepted ++ h) ↔ i ∈ slots ∨ Owed i h) := by
  induction slots with
  | nil => exact ⟨rfl, by simp⟩
  | cons j slots ih =>
    refine ⟨ih.1, ?_⟩
    rw [List.map_cons, List.cons_append]
    by_cases hji : j = i
    · subst hji
      exact ⟨fun _ => .inl List.mem_cons_self, fun _ => owed_accepted⟩
    · have hne : Mark.accepted j ≠ .accepted i := fun heq => hji (Mark.accepted.inj heq)
      rw [owed_cons hne, ih.2, List.mem_cons]
      simp [Mark.settles, Ne.symm hji]

/-! ## One slot -/

/-- The slot has the binding that the history has for it, and it is marked if an edge is owed. -/
structure SlotInv (i : Fin bindSlotCount) (s : BindSlot) (h : List Mark) : Prop where
  used : s.used = true → current i h = some (CString.ofBuffer s.target.1) ∧
    (s.pending = true ↔ Owed i h)
  free : s.used = false → current i h = none ∧ ¬ Owed i h

/-- What happens to another slot. -/
theorem SlotInv.other {s : BindSlot} {m : Mark} (hs : SlotInv i s h) (hm : m.slot ≠ i) :
    SlotInv i s (m :: h) := by
  have hcurrent : current i (m :: h) = current i h := by
    cases m with
    | installed j target => exact if_neg hm
    | removed j => exact if_neg hm
    | accepted j => rfl
    | dispatched j => rfl
  have hset : m.settles i = false := by
    cases m with
    | accepted j => rfl
    | _ => exact decide_eq_false hm
  have hne : m ≠ .accepted i := by
    rintro rfl
    exact hm rfl
  refine ⟨fun hused => ?_, fun hfree => ?_⟩
  · rw [hcurrent, owed_cons hne]
    simpa [hset] using hs.used hused
  · rw [hcurrent, owed_cons hne]
    simpa [hset] using hs.free hfree

theorem slotInv_installed {pin : Nat} {edge : UInt8} {target : List UInt8} {debounceMs : UInt32}
    (hnul : 0 ∉ target) (hlen : target.length ≤ bindTargetMax) :
    SlotInv i (boundSlot pin edge target debounceMs) (.installed i target :: h) := by
  refine ⟨fun _ => ?_, fun hfree => absurd hfree (by simp [boundSlot])⟩
  rw [owed_cons (by simp), current, if_pos rfl]
  refine ⟨congrArg some (ofBuffer_targetBuffer hnul hlen).symm, ?_⟩
  simp [boundSlot, Mark.settles]

theorem slotInv_removed (s : BindSlot) : SlotInv i { s with used := false } (.removed i :: h) := by
  refine ⟨fun hused => absurd hused Bool.false_ne_true, fun _ => ?_⟩
  rw [owed_cons (by simp), current, if_pos rfl]
  simp [Mark.settles]

theorem SlotInv.dispatched {s : BindSlot} (hs : SlotInv i s h) (hused : s.used = true) :
    SlotInv i { s with pending := false } (.dispatched i :: h) := by
  refine ⟨fun _ => ?_, fun hfree => absurd (hfree.symm.trans hused) Bool.false_ne_true⟩
  rw [owed_cons (by simp)]
  refine ⟨(hs.used hused).1, ?_⟩
  simp [Mark.settles]

theorem SlotInv.accepted {s : BindSlot} (hs : SlotInv i s h) {gpio : Nat}
    {events : Finset Edge} {now : UInt32} {slots : List (Fin bindSlotCount)}
    (hmem : i ∈ slots ↔ s.accepts gpio events now = true) :
    SlotInv i (if s.accepts gpio events now = true then
      { s with lastFiredMs := now, pending := true } else s)
      (slots.map .accepted ++ h) := by
  obtain ⟨hcurrent, howed⟩ := @history_accepted i h slots
  by_cases hacc : s.accepts gpio events now = true
  · have hused := BindSlot.accepts_used hacc
    rw [if_pos hacc]
    refine ⟨fun _ => ?_, fun hfree => absurd (hfree.symm.trans hused) Bool.false_ne_true⟩
    rw [hcurrent, howed]
    exact ⟨(hs.used hused).1, fun _ => .inl (hmem.mpr hacc), fun _ => rfl⟩
  · rw [if_neg hacc]
    refine ⟨fun hused => ?_, fun hfree => ?_⟩
    · rw [hcurrent, howed, hmem, or_iff_right hacc]
      exact hs.used hused
    · rw [hcurrent, howed, hmem, or_iff_right hacc]
      exact hs.free hfree

/-! ## Every turn -/

/-- One slot is written, and one thing written down about it. -/
theorem slotInv_update {t : BindTable} {s : BindSlot} {m : Mark} (hall : ∀ i, SlotInv i (t i) h)
    (hown : SlotInv m.slot s (m :: h)) :
    ∀ i, SlotInv i (Function.update t m.slot s i) (m :: h) := by
  intro i
  by_cases hi : i = m.slot
  · rw [hi, Function.update_self]
    exact hown
  · rw [Function.update_of_ne hi]
    exact (hall i).other (Ne.symm hi)

/-- A slot is freed. -/
theorem slotInv_drop {b : Bindings} (hall : ∀ i, SlotInv i (b.slots i) h) (j : Fin bindSlotCount) :
    ∀ i, SlotInv i ((b.drop j).slots i) ((if (b.slots j).used then [.removed j] else []) ++ h) := by
  cases hused : (b.slots j).used with
  | true => exact slotInv_update (m := .removed j) hall (slotInv_removed (b.slots j))
  | false =>
    -- it was free
    have hsame : (b.drop j).slots = b.slots := by
      unfold Bindings.drop
      dsimp only
      rw [Function.update_eq_self_iff, ← hused]
    rw [hsame]
    exact hall

theorem slotInv_turn {b : Bindings} (hall : ∀ i, SlotInv i (b.slots i) h) (a : Turn) :
    ∀ i, SlotInv i ((b.turn a).slots i) (b.marks a ++ h) := by
  cases a with
  | irq gpio events now =>
    exact fun i => (hall i).accepted (by simp [mem_bindSlots])
  | add pin edge buf debounceMs =>
    rw [Bindings.turn, Bindings.marks]
    rcases b.add_cases pin edge (CString.ofBuffer buf) debounceMs with ⟨he, -⟩
      | ⟨j, -, hlen, -, hadd, he⟩
    · rw [he]
      exact hall
    · rw [he, hadd, Bindings.refreshPinIrq_slots]
      exact slotInv_update (m := .installed j (CString.ofBuffer buf)) hall
        (slotInv_installed (CString.ofBuffer_nul buf) hlen)
  | remove pin =>
    rw [Bindings.turn, Bindings.marks, Bindings.remove]
    cases hfind : findSlot pin b.slots with
    | none => exact hall
    | some j =>
      have hdrop := slotInv_drop hall j
      rw [(findSlot_some hfind).1] at hdrop
      dsimp only
      rw [Bindings.refreshPinIrq_slots]
      exact hdrop
  | clear j =>
    have hdrop := slotInv_drop hall j
    rw [Bindings.turn, Bindings.marks, Bindings.clear]
    split
    · next hused =>
      rw [if_pos hused] at hdrop
      rw [Bindings.refreshPinIrq_slots]
      exact hdrop
    · exact hall
  | drop j => exact slotInv_drop hall j
  | visit j =>
    rw [Bindings.turn, Bindings.marks, Bindings.visit]
    split
    · next hdue =>
      have hused := (Bool.and_eq_true_iff.mp hdue).1
      exact slotInv_update (m := .dispatched j) hall ((hall j).dispatched hused)
    · exact hall

theorem eventInv_reachable {w : EventWorld} (h : eventWorlds.Reachable w) :
    TableInv w.b.slots ∧ ∀ i, SlotInv i (w.b.slots i) w.history := by
  refine h.inv (P := fun w => TableInv w.b.slots ∧ ∀ i, SlotInv i (w.b.slots i) w.history) ?_
    fun w a w' hinv _ hs => ?_
  · rintro _ rfl
    exact ⟨tableInv_empty, fun i => ⟨fun hused => absurd hused Bool.false_ne_true, fun _ =>
      ⟨rfl, not_owed_nil⟩⟩⟩
  · rw [← Option.some.inj hs]
    exact ⟨tableInv_turn hinv.1 a, slotInv_turn hinv.2 a⟩

/-! ## Dispatch -/

/-- The line is the string that was bound. -/
theorem TableInv.line {t : BindTable} (ht : TableInv t) (hused : (t i).used = true) :
    (t i).line = CString.ofBuffer (t i).target.1 := by
  obtain ⟨target, hnul, hlen, htarget⟩ := ht.targets i hused
  rw [BindSlot.line, htarget, ofBuffer_targetBuffer hnul hlen, ofBuffer_targetBuffer hnul hlen]

/-- What does not settle a slot leaves its binding. -/
theorem current_clean {newer older : List Mark} (hclean : ∀ m ∈ newer, m.settles i = false) :
    current i (newer ++ older) = current i older := by
  induction newer with
  | nil => rfl
  | cons m newer ih =>
    obtain ⟨hm, hrest⟩ := List.forall_mem_cons.mp hclean
    have htail := ih hrest
    cases m with
    | installed j target => exact (if_neg (of_decide_eq_false hm)).trans htail
    | removed j => exact (if_neg (of_decide_eq_false hm)).trans htail
    | accepted j => exact htail
    | dispatched j => exact htail

/-- **Each accepted edge fires its own binding, once.** A turn of `bindings_dispatch_pending`
dispatches a target exactly if it is that of the binding in the slot and an edge has been accepted
since this was installed or last dispatched; and an edge that has been accepted, and not been
settled since, makes the next turn dispatch the binding it was accepted for. -/
theorem fires_once {w : EventWorld} (h : eventWorlds.Reachable w) (i : Fin bindSlotCount) :
    (∀ target, (w.b.visit i).2 = some target ↔ current i w.history = some target ∧
      Owed i w.history) ∧
    ∀ newer older, w.history = newer ++ .accepted i :: older → (∀ m ∈ newer, m.settles i = false) →
      ∃ target, (w.b.visit i).2 = some target ∧ current i older = some target := by
  obtain ⟨ht, hall⟩ := eventInv_reachable h
  have hvisit : ∀ target, (w.b.visit i).2 = some target ↔ current i w.history = some target ∧
      Owed i w.history := by
    intro target
    unfold Bindings.visit
    cases hused : (w.b.slots i).used with
    | false =>
      obtain ⟨hnone, hnot⟩ := (hall i).free hused
      exact ⟨fun hsome => absurd hsome (by simp), fun hboth => absurd hboth.2 hnot⟩
    | true =>
      obtain ⟨hcurrent, howed⟩ := (hall i).used hused
      rw [hcurrent, ← ht.line hused, ← howed]
      cases (w.b.slots i).pending <;> simp
  refine ⟨hvisit, fun newer older heq hclean => ?_⟩
  have howed : Owed i w.history := ⟨newer, older, heq, hclean⟩
  have hused : (w.b.slots i).used = true := by
    by_contra hfree
    exact ((hall i).free (Bool.not_eq_true _ ▸ hfree)).2 howed
  have hcurrent := ((hall i).used hused).1
  refine ⟨_, (hvisit _).mpr ⟨hcurrent, howed⟩, ?_⟩
  rw [← hcurrent, heq, current_clean hclean]
  rfl

/-- The slot that is filled first. -/
def firstSlot : Fin bindSlotCount := ⟨0, Nat.succ_pos 15⟩

/-- A binding fires, and while its target runs there is another edge. -/
def firing : EventWorld :=
  [.add 2 bindEdgeHigh (CString.ascii "led on") 0, .irq 2 {.rise} 5, .visit firstSlot,
    .irq 2 {.rise} 9].foldl
    EventWorld.next { b := .zero, history := [] }

theorem firing_again : firing.history = [.accepted firstSlot, .dispatched firstSlot,
    .accepted firstSlot,
      .installed firstSlot (CString.ascii "led on")] ∧
    (firing.b.visit firstSlot).2 = some (CString.ascii "led on") := by
  have hhistory : firing.history = [.accepted firstSlot, .dispatched firstSlot, .accepted firstSlot,
      .installed firstSlot (CString.ascii "led on")] := by decide +kernel
  have hreach : eventWorlds.Reachable firing :=
    .tail (.tail (.tail (.tail (.init rfl) rfl) rfl) rfl) rfl
  obtain ⟨target, hvisit, hcurrent⟩ :=
    (fires_once hreach firstSlot).2 [] _ hhistory fun _ hm => absurd hm List.not_mem_nil
  refine ⟨hhistory, hvisit.trans ?_⟩
  rw [← hcurrent]
  rfl

end PicoBLE.System
