import Mathlib.Data.Finset.Union
import Mathlib.Data.Fintype.Basic
import Mathlib.Logic.Function.Basic
import PicoBLE.Lib.LTS
import PicoBLE.System.Bindings

/-!
# `system/bindings.c`: the table and the interrupts

Each operation on the table also tells the hardware which edges of a pin
interrupt. The interrupt only marks a slot; the main loop goes through the
slots later and runs the targets of those that are marked. It does so slot by
slot, and so do `bindings_clear_all` and `bindings_load`, and in between
anything can happen.
-/

namespace PicoBLE.System

open NorFlash
open PicoBLE.Ota (picoOtaCrc32)

/-! ## Edges -/

/-- `GPIO_IRQ_EDGE_RISE` and `GPIO_IRQ_EDGE_FALL`. -/
inductive Edge where
  | rise
  | fall
deriving DecidableEq, Repr

def bindEdgeHigh : UInt8 := 0
def bindEdgeLow : UInt8 := 1
def bindEdgeChange : UInt8 := 2

/-- `edge_mask`. -/
def edgeMask (e : UInt8) : Finset Edge :=
  if e = bindEdgeHigh then {.rise}
  else if e = bindEdgeLow then {.fall}
  else if e = bindEdgeChange then {.rise, .fall}
  else ∅

/-- The statics of `bindings.c`, and the interrupts that are enabled. -/
structure Bindings where
  slots : BindTable
  /-- By pin. -/
  enabled : Nat → Finset Edge
  /-- `g_irq_wired`. -/
  wired : Bool

namespace Bindings

/-! ## The hardware -/

/-- `gpio_set_irq_enabled`, for these events only. -/
def gpioSetIrqEnabled (pin : Nat) (events : Finset Edge) (on : Bool) (b : Bindings) : Bindings :=
  { b with
    enabled := Function.update b.enabled pin
      (if on then b.enabled pin ∪ events else b.enabled pin \ events) }

/-- The masks of the used bindings on a pin. -/
def pinMask (pin : Nat) (t : BindTable) : Finset Edge :=
  bindSlots.foldl
    (fun mask i =>
      if (t i).used ∧ (t i).pin.toNat = pin then mask ∪ edgeMask (t i).edge else mask) ∅

/-- `refresh_pin_irq`. -/
def refreshPinIrq (pin : Nat) (b : Bindings) : Bindings :=
  let mask := pinMask pin b.slots
  if mask ≠ ∅ then
    if b.wired then b.gpioSetIrqEnabled pin mask true
    -- with the callback, once
    else { b.gpioSetIrqEnabled pin mask true with wired := true }
  else b.gpioSetIrqEnabled pin {.rise, .fall} false

/-! ## The table -/

/-- `g_slots[i].used = false`. -/
def drop (i : Fin bindSlotCount) (b : Bindings) : Bindings :=
  { b with slots := Function.update b.slots i { b.slots i with used := false } }

/-- `bindings_add`. -/
def add (pin : Nat) (edge : UInt8) (target : List UInt8) (debounceMs : UInt32) (b : Bindings) :
    Bindings × Bool :=
  match bindingsAdd pin edge target debounceMs b.slots with
  | none => (b, false)
  | some slots => (refreshPinIrq pin { b with slots := slots }, true)

/-- `bindings_remove`. -/
def remove (pin : Nat) (b : Bindings) : Bindings × Bool :=
  match findSlot pin b.slots with
  | none => (b, false)
  | some i => (refreshPinIrq pin (b.drop i), true)

/-- A turn of the loop of `bindings_clear_all`. -/
def clear (i : Fin bindSlotCount) (b : Bindings) : Bindings :=
  if (b.slots i).used then refreshPinIrq (b.slots i).pin.toNat (b.drop i) else b

/-- `bindings_clear_all`. -/
def clearAll (b : Bindings) : Bindings := bindSlots.foldl (fun b i => b.clear i) b

/-! ## Loading -/

/-- The entries that `bindings_load` goes through, if it accepts the record. -/
def storedEntries (f : Image) : Option (List DiskBind) :=
  let r := DiskRecord.decode (read bindStorageOffset diskRecordSize f) (read_length _ _ _)
  if r.magic ≠ bindMagic ∨ r.version ≠ bindVersion then none
  else if picoOtaCrc32 r.covered ≠ r.crc32 then none
  else if r.count.toNat > bindSlotCount then none
  else some ((bindSlots.filter fun i => i.1 < r.count.toNat).map r.entries)

/-- A turn of the second loop of `bindings_load`. -/
def loadEntry (b : Bindings) (d : DiskBind) : Bindings :=
  if d.used = 0 then b else (b.add d.pin.toNat d.edge (CString.ofBuffer d.target.1) d.debounceMs).1

/-- The two loops of `bindings_load`. -/
def install (ds : List DiskBind) (b : Bindings) : Bindings :=
  ds.foldl loadEntry (bindSlots.foldl (fun b i => b.drop i) b)

/-- `bindings_load`. -/
def load (f : Image) (b : Bindings) : Bindings × Bool :=
  match storedEntries f with
  | none => (b, false)
  | some ds => (b.install ds, true)

/-- `memset(g_slots, 0, sizeof(g_slots))`. -/
def emptySlot : BindSlot :=
  { used := false, pin := 0, edge := 0, debounceMs := 0, target := DiskBind.zero.target,
    lastFiredMs := 0, pending := false }

/-- `bindings_init`. -/
def init (f : Image) (b : Bindings) : Bindings := ({ b with slots := fun _ => emptySlot }.load f).1

/-! ## Interrupts -/

end Bindings

/-- The edge is one of the binding's. -/
def BindSlot.isFor (s : BindSlot) (events : Finset Edge) : Bool :=
  (Edge.rise ∈ events ∧ (s.edge = bindEdgeHigh ∨ s.edge = bindEdgeChange)) ∨
    (Edge.fall ∈ events ∧ (s.edge = bindEdgeLow ∨ s.edge = bindEdgeChange))

/-- What `gpio_irq_cb` asks before it marks a slot. -/
def BindSlot.accepts (s : BindSlot) (gpio : Nat) (events : Finset Edge) (now : UInt32) : Bool :=
  s.used && (s.pin.toNat = gpio) && s.isFor events &&
    !(0 < s.debounceMs && now - s.lastFiredMs < s.debounceMs)

/-- The line that is dispatched: a copy of the target. -/
def BindSlot.line (s : BindSlot) : List UInt8 :=
  CString.ofBuffer (targetBuffer (CString.ofBuffer s.target.1)).1

namespace Bindings

/-- `gpio_irq_cb`. -/
def gpioIrqCb (gpio : Nat) (events : Finset Edge) (now : UInt32) (b : Bindings) : Bindings :=
  { b with slots := fun i =>
      if (b.slots i).accepts gpio events now then
        { b.slots i with lastFiredMs := now, pending := true }
      else b.slots i }

/-- A turn of the loop of `bindings_dispatch_pending`, and the line it dispatches. -/
def visit (i : Fin bindSlotCount) (b : Bindings) : Bindings × Option (List UInt8) :=
  if (b.slots i).used && (b.slots i).pending then
    ({ b with slots := Function.update b.slots i { b.slots i with pending := false } },
      some (b.slots i).line)
  else (b, none)

/-- At start nothing is bound, and no interrupt is enabled. -/
def zero : Bindings := { slots := fun _ => emptySlot, enabled := fun _ => ∅, wired := false }

end Bindings

/-! ## What can happen -/

/-- What happens at once. -/
inductive Turn where
  /-- An interrupt. -/
  | irq (gpio : Nat) (events : Finset Edge) (now : UInt32)
  /-- `bindings_add`, with the string in this buffer. -/
  | add (pin : Nat) (edge : UInt8) (buf : List UInt8) (debounceMs : UInt32)
  /-- `bindings_remove`. -/
  | remove (pin : Nat)
  /-- A turn of `bindings_clear_all`. -/
  | clear (i : Fin bindSlotCount)
  /-- A turn of the first loop of `bindings_load`. -/
  | drop (i : Fin bindSlotCount)
  /-- A turn of `bindings_dispatch_pending`. What the target does comes after it. -/
  | visit (i : Fin bindSlotCount)

def Bindings.turn (b : Bindings) : Turn → Bindings
  | .irq gpio events now => b.gpioIrqCb gpio events now
  | .add pin edge buf debounceMs => (b.add pin edge (CString.ofBuffer buf) debounceMs).1
  | .remove pin => (b.remove pin).1
  | .clear i => b.clear i
  | .drop i => b.drop i
  | .visit i => (b.visit i).1

/-- What happens, call by call. -/
inductive BindEvent where
  | irq (gpio : Nat) (events : Finset Edge) (now : UInt32)
  | add (pin : Nat) (edge : UInt8) (buf : List UInt8) (debounceMs : UInt32)
  | remove (pin : Nat)
  | clearAll
  /-- `bindings_load`, when the flash is like this. -/
  | load (f : Image)
  | visit (i : Fin bindSlotCount)

def Bindings.next (b : Bindings) : BindEvent → Bindings
  | .irq gpio events now => b.gpioIrqCb gpio events now
  | .add pin edge buf debounceMs => (b.add pin edge (CString.ofBuffer buf) debounceMs).1
  | .remove pin => (b.remove pin).1
  | .clearAll => b.clearAll
  | .load f => (b.load f).1
  | .visit i => (b.visit i).1

/-- `bindings_init` clears what is zero, and loads: from there on, all calls. -/
def bindings : LTS Bindings BindEvent := LTS.ofFun (· = .zero) fun b e => some (b.next e)

theorem Bindings.init_zero (f : Image) : zero.init f = (zero.load f).1 := rfl

/-- An entry that is installed. -/
def DiskBind.turn (d : DiskBind) : Turn := .add d.pin.toNat d.edge d.target.1 d.debounceMs

/-- The turns of `bindings_load`. -/
def loadTurns (ds : List DiskBind) : List Turn :=
  bindSlots.map .drop ++ (ds.filter fun d => d.used ≠ 0).map DiskBind.turn

/-- A call, turn by turn. -/
def BindEvent.turns : BindEvent → List Turn
  | .irq gpio events now => [.irq gpio events now]
  | .add pin edge buf debounceMs => [.add pin edge buf debounceMs]
  | .remove pin => [.remove pin]
  | .clearAll => bindSlots.map .clear
  | .load f => ((Bindings.storedEntries f).map loadTurns).getD []
  | .visit i => [.visit i]

theorem Bindings.foldl_loadEntry (ds : List DiskBind) (b : Bindings) :
    ds.foldl loadEntry b = ((ds.filter fun d => d.used ≠ 0).map DiskBind.turn).foldl
      Bindings.turn b := by
  induction ds generalizing b with
  | nil => rfl
  | cons d ds ih =>
    rw [List.foldl_cons, List.filter_cons]
    by_cases hused : d.used = 0
    · rw [loadEntry, if_pos hused, ih, if_neg (by simp [hused])]
    · rw [loadEntry, if_neg hused, ih, if_pos (by simp [hused])]
      rfl

theorem Bindings.load_none {f : Image} {b : Bindings} (h : storedEntries f = none) :
    b.load f = (b, false) := by
  unfold load
  rw [h]

theorem Bindings.load_some {f : Image} {b : Bindings} {ds : List DiskBind}
    (h : storedEntries f = some ds) :
    b.load f = (b.install ds, true) := by
  unfold load
  rw [h]

theorem Bindings.clearAll_turns (b : Bindings) :
    b.clearAll = (bindSlots.map .clear).foldl Bindings.turn b := by
  rw [clearAll]
  generalize bindSlots = slots
  induction slots generalizing b with
  | nil => rfl
  | cons i slots ih => exact ih _

theorem Bindings.install_turns (ds : List DiskBind) (b : Bindings) :
    b.install ds = (loadTurns ds).foldl Bindings.turn b := by
  rw [install, foldl_loadEntry, loadTurns, List.foldl_append]
  generalize bindSlots = slots
  induction slots generalizing b with
  | nil => rfl
  | cons i slots ih => exact ih _

/-- **A call is its turns**, when nothing comes between them. -/
theorem Bindings.next_turns (b : Bindings) (e : BindEvent) :
    b.next e = e.turns.foldl Bindings.turn b := by
  cases e with
  | clearAll => exact b.clearAll_turns
  | load f =>
    show (b.load f).1 = (((storedEntries f).map loadTurns).getD []).foldl Bindings.turn b
    cases h : storedEntries f with
    | none => rw [load_none h, Option.map_none, Option.getD_none, List.foldl_nil]
    | some ds => rw [load_some h, Option.map_some, Option.getD_some, install_turns]
  | _ => rfl

/-! ## Slots -/

theorem mem_bindSlots (i : Fin bindSlotCount) : i ∈ bindSlots := List.mem_finRange i

variable {t : BindTable} {i : Fin bindSlotCount} {pin : Nat}

theorem findSlot_some (h : findSlot pin t = some i) : (t i).used = true ∧
    (t i).pin.toNat = pin := by
  have hi := List.find?_some h
  rw [Bool.and_eq_true, decide_eq_true_eq] at hi
  exact hi

theorem findSlot_none (h : findSlot pin t = none) : ∀ j, (t j).used = true →
    (t j).pin.toNat ≠ pin := by
  intro j hused heq
  have hj := List.find?_eq_none.mp h j (mem_bindSlots j)
  exact hj (by rw [hused, Bool.true_and, decide_eq_true_eq]; exact heq)

/-- The first slot that is free. -/
theorem findFreeSlot_some (h : findFreeSlot t = some i) :
    (t i).used = false ∧ ∀ j, j < i → (t j).used = true := by
  obtain ⟨hi, before, after, hsplit, hbefore⟩ := List.find?_eq_some_iff_append.mp h
  rw [Bool.not_eq_true'] at hi
  refine ⟨hi, fun j hj => ?_⟩
  have hmem : j ∈ before ++ i :: after := hsplit ▸ mem_bindSlots j
  rcases List.mem_append.mp hmem with hmem | hmem
  · have hj := hbefore j hmem
    rw [Bool.not_not] at hj
    exact hj
  · -- the slots come in order
    have hsorted : List.Pairwise (· < ·) (before ++ i :: after) :=
      hsplit ▸ List.pairwise_lt_finRange _
    rcases List.mem_cons.mp hmem with rfl | hmem
    · exact absurd hj (lt_irrefl _)
    · have hlt := List.rel_of_pairwise_cons (List.pairwise_append.mp hsorted).2.1 hmem
      exact absurd hj (lt_asymm hlt)

theorem findFreeSlot_none (h : findFreeSlot t = none) : ∀ j, (t j).used = true := by
  intro j
  have hj := List.find?_eq_none.mp h j (mem_bindSlots j)
  rw [Bool.not_eq_true, Bool.not_eq_false'] at hj
  exact hj

/-- The slot that `bindings_add` writes: that of the binding on the pin, or one that is free. -/
def addSlot (pin : Nat) (t : BindTable) : Option (Fin bindSlotCount) :=
  (findSlot pin t).orElse fun _ => findFreeSlot t

/-- No slot before one that was free is. -/
theorem addSlot_first (h : addSlot pin t = some i) (hfree : (t i).used = false) :
    ∀ j, j < i → (t j).used = true := by
  unfold addSlot at h
  cases hfind : findSlot pin t with
  | some k =>
    rw [hfind] at h
    obtain rfl := Option.some.inj h
    exact absurd (hfree.symm.trans (findSlot_some hfind).1) Bool.false_ne_true
  | none =>
    rw [hfind] at h
    exact (findFreeSlot_some h).2

/-- A binding that has just been added. -/
def boundSlot (pin : Nat) (edge : UInt8) (target : List UInt8) (debounceMs : UInt32) : BindSlot :=
  { used := true, pin := UInt8.ofNat pin, edge := edge, debounceMs := debounceMs,
    target := targetBuffer target, lastFiredMs := 0, pending := false }

/-- **What `bindings_add` does to the table**: a binding on the pin is replaced, else a slot is
filled. -/
theorem bindingsAdd_cases (pin : Nat) (edge : UInt8) (target : List UInt8) (debounceMs : UInt32)
    (t : BindTable) :
    (bindingsAdd pin edge target debounceMs t = none ∧
      (29 < pin ∨ bindTargetMax < target.length ∨ ∀ j, (t j).used = true ∧ (t j).pin.toNat ≠ pin)) ∨
    ∃ i, pin ≤ 29 ∧ target.length ≤ bindTargetMax ∧
      (((t i).used = true ∧ (t i).pin.toNat = pin) ∨
        (t i).used = false ∧ ∀ j, (t j).used = true → (t j).pin.toNat ≠ pin) ∧
      addSlot pin t = some i ∧
      bindingsAdd pin edge target debounceMs t =
        some (Function.update t i (boundSlot pin edge target debounceMs)) := by
  have hupdate : ∀ i, (fun j => if j = i then boundSlot pin edge target debounceMs else t j) =
      Function.update t i (boundSlot pin edge target debounceMs) := by
    intro i
    funext j
    rw [Function.update_apply]
  unfold bindingsAdd
  split
  · next hbad => exact .inl ⟨rfl, hbad.imp_right .inl⟩
  · next hgood =>
    obtain ⟨hpin, hlen⟩ := not_or.mp hgood
    cases hfind : findSlot pin t with
    | some i =>
      exact .inr ⟨i, Nat.le_of_not_lt hpin, Nat.le_of_not_lt hlen, .inl (findSlot_some hfind),
        by rw [addSlot, hfind]; rfl, congrArg some (hupdate i)⟩
    | none =>
      cases hfree : findFreeSlot t with
      | none =>
        have hused := findFreeSlot_none hfree
        exact .inl ⟨rfl, .inr (.inr fun j => ⟨hused j, findSlot_none hfind j (hused j)⟩)⟩
      | some i =>
        exact .inr ⟨i, Nat.le_of_not_lt hpin, Nat.le_of_not_lt hlen,
          .inr ⟨(findFreeSlot_some hfree).1, findSlot_none hfind⟩,
          by rw [addSlot, hfind]; exact hfree, congrArg some (hupdate i)⟩

/-- Only a slot that is used accepts an edge. -/
theorem BindSlot.accepts_used {s : BindSlot} {gpio : Nat} {events : Finset Edge} {now : UInt32}
    (h : s.accepts gpio events now = true) : s.used = true := by
  unfold BindSlot.accepts at h
  simp only [Bool.and_eq_true] at h
  exact h.1.1.1

@[simp] theorem Bindings.refreshPinIrq_slots (pin : Nat) (b : Bindings) :
    (b.refreshPinIrq pin).slots = b.slots := by
  unfold refreshPinIrq
  dsimp only
  split
  · split <;> rfl
  · rfl

/-- **`bindings_add`**: refused, or a slot is written and the pin refreshed. -/
theorem Bindings.add_cases (pin : Nat) (edge : UInt8) (target : List UInt8) (debounceMs : UInt32)
    (b : Bindings) :
    (b.add pin edge target debounceMs = (b, false) ∧
      (29 < pin ∨ bindTargetMax < target.length ∨ ∀ j, (b.slots j).used = true ∧
        (b.slots j).pin.toNat ≠ pin)) ∨
    ∃ i, pin ≤ 29 ∧ target.length ≤ bindTargetMax ∧
      (((b.slots i).used = true ∧ (b.slots i).pin.toNat = pin) ∨
        (b.slots i).used = false ∧ ∀ j, (b.slots j).used = true → (b.slots j).pin.toNat ≠ pin) ∧
      addSlot pin b.slots = some i ∧
      b.add pin edge target debounceMs = (refreshPinIrq pin
        { b with slots := Function.update b.slots i (boundSlot pin edge target debounceMs) },
        true) := by
  unfold add
  rcases bindingsAdd_cases pin edge target debounceMs b.slots with ⟨hnone, hwhy⟩ |
    ⟨i, hpin, hlen, hslot, hadd, hsome⟩
  · rw [hnone]
    exact .inl ⟨rfl, hwhy⟩
  · rw [hsome]
    exact .inr ⟨i, hpin, hlen, hslot, hadd, rfl⟩

/-- **`bindings_remove`**: nothing to do, or the binding on the pin is dropped and the pin
refreshed. -/
theorem Bindings.remove_cases (pin : Nat) (b : Bindings) :
    (b.remove pin = (b, false) ∧ ∀ j, (b.slots j).used = true → (b.slots j).pin.toNat ≠ pin) ∨
    ∃ i, (b.slots i).used = true ∧ (b.slots i).pin.toNat = pin ∧
      b.remove pin = (refreshPinIrq pin (b.drop i), true) := by
  unfold remove
  cases hfind : findSlot pin b.slots with
  | none => exact .inl ⟨rfl, findSlot_none hfind⟩
  | some i =>
    obtain ⟨hused, hpin⟩ := findSlot_some hfind
    exact .inr ⟨i, hused, hpin, rfl⟩

/-- The first loop of `bindings_load` frees every slot, and leaves all interrupts as they are. -/
theorem Bindings.foldl_drop (b : Bindings) :
    (bindSlots.foldl (fun b i => b.drop i) b).slots = (fun j => { b.slots j with used := false }) ∧
      (bindSlots.foldl (fun b i => b.drop i) b).enabled = b.enabled := by
  have hall : ∀ (slots : List (Fin bindSlotCount)) (b : Bindings),
      (slots.foldl (fun b i => b.drop i) b).slots =
          (fun j => if j ∈ slots then { b.slots j with used := false } else b.slots j) ∧
        (slots.foldl (fun b i => b.drop i) b).enabled = b.enabled := by
    intro slots
    induction slots with
    | nil => exact fun b => ⟨rfl, rfl⟩
    | cons i slots ih =>
      intro b
      obtain ⟨hslots, henabled⟩ := ih (b.drop i)
      refine ⟨?_, henabled⟩
      rw [List.foldl_cons, hslots]
      funext j
      unfold Bindings.drop
      dsimp only
      by_cases hji : j = i
      · subst hji
        rw [Function.update_self, if_pos List.mem_cons_self]
        split <;> rfl
      · rw [Function.update_of_ne hji]
        simp only [List.mem_cons, hji, false_or]
  obtain ⟨hslots, henabled⟩ := hall bindSlots b
  refine ⟨?_, henabled⟩
  rw [hslots]
  funext j
  exact if_pos (mem_bindSlots j)

/-- The second loop of `bindings_load` does to the table what it does without the hardware. -/
theorem Bindings.foldl_loadEntry_slots (ds : List DiskBind) (b : Bindings) :
    (ds.foldl loadEntry b).slots = installEntries ds b.slots := by
  induction ds generalizing b with
  | nil => rfl
  | cons d ds ih =>
    rw [List.foldl_cons, ih, installEntries, loadEntry]
    split
    · rfl
    · unfold add
      cases bindingsAdd d.pin.toNat d.edge (CString.ofBuffer d.target.1) d.debounceMs b.slots with
      | none => rfl
      | some slots =>
        dsimp only
        rw [refreshPinIrq_slots]
        rfl

theorem bindingsLoad_eq (f : Image) (t : BindTable) : bindingsLoad f t =
    (Bindings.storedEntries f).map fun ds => installEntries ds fun i =>
    { t i with used := false } := by
  unfold bindingsLoad Bindings.storedEntries
  dsimp only
  split
  · rfl
  · split
    · rfl
    · split <;> rfl

/-- The table that `bindings_load` leaves, and what it returns. -/
theorem Bindings.load_slots (f : Image) (b : Bindings) :
    (b.load f).1.slots = (bindingsLoad f b.slots).getD b.slots ∧
    (b.load f).2 = (bindingsLoad f b.slots).isSome := by
  rw [bindingsLoad_eq]
  cases h : storedEntries f with
  | none => rw [load_none h]; exact ⟨rfl, rfl⟩
  | some ds =>
    rw [load_some h]
    refine ⟨?_, rfl⟩
    rw [install, foldl_loadEntry_slots, b.foldl_drop.1]
    rfl

/-! ## The table -/

/-- A string in its buffer. -/
theorem ofBuffer_targetBuffer {target : List UInt8} (hnul : 0 ∉ target)
    (hlen : target.length ≤ bindTargetMax) :
    CString.ofBuffer (targetBuffer target).1 = target :=
  (CString.ofBuffer_strncpy bindTargetMax hnul).trans (List.take_of_length_le hlen)

/-- What holds of the bindings at all times. -/
structure TableInv (t : BindTable) : Prop where
  /-- A pin is bound once. -/
  pins : ∀ i j, (t i).used = true → (t j).used = true → (t i).pin = (t j).pin → i = j
  range : ∀ i, (t i).used = true → (t i).pin.toNat ≤ 29
  /-- A target is a string in its buffer. -/
  targets : ∀ i, (t i).used = true → ∃ target, 0 ∉ target ∧ target.length ≤ bindTargetMax ∧
    (t i).target = targetBuffer target

theorem tableInv_empty : TableInv fun _ => Bindings.emptySlot :=
  ⟨fun _ _ h => absurd h Bool.false_ne_true, fun _ h => absurd h Bool.false_ne_true,
    fun _ h => absurd h Bool.false_ne_true⟩

/-- A table whose used slots are those of another. -/
theorem TableInv.mono {t' : BindTable} (h : TableInv t) (hsame : ∀ i, (t' i).used = true →
    (t i).used = true ∧ (t' i).pin = (t i).pin ∧ (t' i).target = (t i).target) : TableInv t' := by
  refine ⟨fun i j hi hj hpin => ?_, fun i hi => ?_, fun i hi => ?_⟩
  · obtain ⟨hui, hpi, -⟩ := hsame i hi
    obtain ⟨huj, hpj, -⟩ := hsame j hj
    exact h.pins i j hui huj (by rw [← hpi, ← hpj, hpin])
  · obtain ⟨hui, hpi, -⟩ := hsame i hi
    rw [hpi]
    exact h.range i hui
  · obtain ⟨hui, -, hti⟩ := hsame i hi
    rw [hti]
    exact h.targets i hui

/-- The slot of a pin or, if the pin has none, a free one: no other slot has the pin. -/
theorem TableInv.pin_other (h : TableInv t)
    (hslot : ((t i).used = true ∧ (t i).pin.toNat = pin) ∨
      (t i).used = false ∧ ∀ j, (t j).used = true → (t j).pin.toNat ≠ pin) {j :
      Fin bindSlotCount} (hne : j ≠ i)
    (hused : (t j).used = true) : (t j).pin.toNat ≠ pin := by
  intro heq
  rcases hslot with ⟨hui, hpi⟩ | ⟨-, hnone⟩
  · exact hne (h.pins j i hused hui (UInt8.toNat_inj.mp (heq.trans hpi.symm)))
  · exact hnone j hused heq

/-- A pin is held in a byte. -/
theorem boundSlot_pin {edge : UInt8} {target : List UInt8} {debounceMs : UInt32} (hpin : pin ≤ 29) :
    (boundSlot pin edge target debounceMs).pin.toNat = pin := by
  rw [boundSlot, UInt8.toNat_ofNat', Nat.mod_eq_of_lt (by omega)]

/-- A new binding. -/
theorem TableInv.bound {edge : UInt8} {target : List UInt8} {debounceMs : UInt32} (h : TableInv t)
    (hpin : pin ≤ 29) (hnul : 0 ∉ target) (hlen : target.length ≤ bindTargetMax)
    (hslot : ((t i).used = true ∧ (t i).pin.toNat = pin) ∨
      (t i).used = false ∧ ∀ j, (t j).used = true → (t j).pin.toNat ≠ pin) :
    TableInv (Function.update t i (boundSlot pin edge target debounceMs)) := by
  have hnat : (boundSlot pin edge target debounceMs).pin.toNat = pin := boundSlot_pin hpin
  have hother : ∀ j, j ≠ i → (t j).used = true →
      (t j).pin ≠ (boundSlot pin edge target debounceMs).pin :=
    fun j hne hused heq => h.pin_other hslot hne hused ((congrArg UInt8.toNat heq).trans hnat)
  refine ⟨fun j k hj hk heq => ?_, fun j hj => ?_, fun j hj => ?_⟩
  · by_cases hji : j = i
    · by_cases hki : k = i
      · rw [hji, hki]
      · rw [hji, Function.update_self, Function.update_of_ne hki] at heq
        rw [Function.update_of_ne hki] at hk
        exact absurd heq.symm (hother k hki hk)
    · rw [Function.update_of_ne hji] at hj heq
      by_cases hki : k = i
      · rw [hki, Function.update_self] at heq
        exact absurd heq (hother j hji hj)
      · rw [Function.update_of_ne hki] at hk heq
        exact h.pins j k hj hk heq
  · by_cases hji : j = i
    · rw [hji, Function.update_self]
      exact Nat.le_trans (Nat.le_of_eq hnat) hpin
    · rw [Function.update_of_ne hji] at hj ⊢
      exact h.range j hj
  · by_cases hji : j = i
    · rw [hji, Function.update_self]
      exact ⟨target, hnul, hlen, rfl⟩
    · rw [Function.update_of_ne hji] at hj ⊢
      exact h.targets j hj

theorem TableInv.drop (h : TableInv t) (i : Fin bindSlotCount) :
    TableInv (Function.update t i { t i with used := false }) := by
  refine h.mono fun j hj => ?_
  by_cases hji : j = i
  · rw [hji, Function.update_self] at hj
    exact absurd hj Bool.false_ne_true
  · rw [Function.update_of_ne hji] at hj ⊢
    exact ⟨hj, rfl, rfl⟩

/-- **Every turn keeps the table.** -/
theorem tableInv_turn {b : Bindings} (h : TableInv b.slots) (a : Turn) :
    TableInv (b.turn a).slots := by
  cases a with
  | irq gpio events now =>
    refine h.mono fun j hj => ?_
    rw [Bindings.turn, Bindings.gpioIrqCb] at hj ⊢
    dsimp only at hj ⊢
    split at hj <;> exact ⟨hj, by split <;> rfl, by split <;> rfl⟩
  | add pin edge buf debounceMs =>
    rw [Bindings.turn]
    rcases b.add_cases pin edge (CString.ofBuffer buf) debounceMs with ⟨he, -⟩
      | ⟨i, hpin, hlen, hslot, -, he⟩
    · rw [he]; exact h
    · rw [he, Bindings.refreshPinIrq_slots]
      exact h.bound hpin (CString.ofBuffer_nul buf) hlen hslot
  | remove pin =>
    rw [Bindings.turn]
    rcases b.remove_cases pin with ⟨he, -⟩ | ⟨i, -, -, he⟩
    · rw [he]; exact h
    · rw [he, Bindings.refreshPinIrq_slots]
      exact h.drop i
  | clear i =>
    rw [Bindings.turn, Bindings.clear]
    split
    · rw [Bindings.refreshPinIrq_slots]
      exact h.drop i
    · exact h
  | drop i => exact h.drop i
  | visit i =>
    rw [Bindings.turn, Bindings.visit]
    split
    · refine h.mono fun j hj => ?_
      dsimp only at hj ⊢
      by_cases hji : j = i
      · subst hji
        rw [Function.update_self] at hj ⊢
        exact ⟨hj, rfl, rfl⟩
      · rw [Function.update_of_ne hji] at hj ⊢
        exact ⟨hj, rfl, rfl⟩
    · exact h

theorem tableInv_turns {b : Bindings} (h : TableInv b.slots) (as : List Turn) :
    TableInv (as.foldl Bindings.turn b).slots := by
  induction as generalizing b with
  | nil => exact h
  | cons a as ih => exact ih (tableInv_turn h a)

theorem tableInv_next {b : Bindings} (h : TableInv b.slots) (e : BindEvent) :
    TableInv (b.next e).slots := by
  rw [b.next_turns]
  exact tableInv_turns h _

theorem tableInv_reachable {b : Bindings} (h : bindings.Reachable b) : TableInv b.slots := by
  refine h.inv (P := fun b => TableInv b.slots) ?_ fun b e b' hinv _ hs => ?_
  · rintro _ rfl
    exact tableInv_empty
  · rw [← Option.some.inj hs]
    exact tableInv_next hinv e

end PicoBLE.System
