import PicoBLE.Lib.SlotTable
import PicoBLE.System.BindingRecord

/-!
# The binding table is a finite map

What `bindings.c` is for is a map from pins to bindings with room for sixteen. A
slot keeps its binding when it is freed, and interrupts write to slots, so only
what a used slot says of its pin counts. `BindMap` is the map, and the table
stands for it in every run, whatever interrupts come between the calls.
-/

namespace PicoBLE.System

open NorFlash
open SlotTable

/-! ## Looking at all of them -/

/-- `bindings_count`. -/
def bindingsCount (t : BindTable) : Nat := bindSlots.countP fun i => (t i).used

/-- `bind_snapshot_t`, of a slot that is used. -/
structure BindSnapshot where
  pin : UInt8
  edge : UInt8
  debounceMs : UInt32
  target : Storage.Block 97
  lastFiredMs : UInt32

/-- The copy that a callback gets. -/
def BindSlot.snapshot (s : BindSlot) : BindSnapshot where
  pin := s.pin
  edge := s.edge
  debounceMs := s.debounceMs
  target := targetBuffer (CString.ofBuffer s.target.1)
  lastFiredMs := s.lastFiredMs

/-- `bindings_iter`: what it calls back with. -/
def bindingsIter (t : BindTable) : List (Fin bindSlotCount × BindSnapshot) :=
  (bindSlots.filter fun i => (t i).used).map fun i => (i, (t i).snapshot)

/-- The binding that a snapshot shows. -/
def BindSnapshot.binding (s : BindSnapshot) : Binding :=
  { pin := s.pin, edge := s.edge, debounceMs := s.debounceMs,
    target := CString.ofBuffer s.target.1 }

/-! ## The map -/

/-- Pins and what they are bound to. -/
abbrev BindMap := Finmap fun _ : Nat => Binding

/-- The binding that is asked for, in its fields. -/
def bindingOf (pin : Nat) (edge : UInt8) (target : List UInt8) (debounceMs : UInt32) : Binding :=
  { pin := UInt8.ofNat pin, edge := edge, debounceMs := debounceMs, target := target }

/-- A new binding, unless there is no such pin, the line is too long or there is no room. -/
def BindMap.bind (m : BindMap) (pin : Nat) (edge : UInt8) (target : List UInt8)
    (debounceMs : UInt32) : Option BindMap :=
  if pin ≤ 29 ∧ target.length ≤ bindTargetMax ∧
      (m.lookup pin ≠ none ∨ m.keys.card < bindSlotCount) then
    some (m.insert pin (bindingOf pin edge target debounceMs))
  else none

/-- An entry of a record that is loaded. -/
def BindMap.loadEntry (m : BindMap) (d : DiskBind) : BindMap :=
  if d.used = 0 then m
  else (m.bind d.pin.toNat d.edge (CString.ofBuffer d.target.1) d.debounceMs).getD m

/-- The call, on the map. -/
def BindMap.next (m : BindMap) : BindEvent → BindMap
  | .irq _ _ _ => m
  | .add pin edge buf debounceMs => (m.bind pin edge (CString.ofBuffer buf) debounceMs).getD m
  | .remove pin => m.erase pin
  | .clearAll => ∅
  | .load f =>
    match Bindings.storedEntries f with
    | none => m
    | some ds => ds.foldl BindMap.loadEntry ∅
  | .visit _ => m

/-- What a slot holds. -/
def BindSlot.entry (s : BindSlot) : Option (Nat × Binding) :=
  if s.used then some (s.pin.toNat, s.binding) else none

/-- What the table holds. -/
def BindTable.entries (t : BindTable) (i : Fin bindSlotCount) : Option (Nat × Binding) :=
  (t i).entry

theorem bindEntry_eq_some {s : BindSlot} {pin : Nat} {v : Binding} :
    s.entry = some (pin, v) ↔ s.used = true ∧ s.pin.toNat = pin ∧ s.binding = v := by
  unfold BindSlot.entry
  split
  · next h => simp [h]
  · next h => simp [h]

theorem bindEntry_eq_none {s : BindSlot} : s.entry = none ↔ s.used = false := by
  unfold BindSlot.entry
  cases s.used <;> simp

/-- Tables with the same used slots hold the same. -/
theorem entries_congr {t t' : BindTable}
    (h : ∀ i, (t' i).used = (t i).used ∧ (t' i).pin = (t i).pin ∧
      (t' i).binding = (t i).binding) :
    BindTable.entries t' = BindTable.entries t := by
  funext i
  obtain ⟨hused, hpin, hbinding⟩ := h i
  rw [BindTable.entries, BindTable.entries, BindSlot.entry, BindSlot.entry, hused, hpin, hbinding]

/-- A slot is written. -/
theorem entries_update (t : BindTable) (i : Fin bindSlotCount) (s : BindSlot) :
    BindTable.entries (Function.update t i s) =
      Function.update (BindTable.entries t) i s.entry := by
  funext j
  by_cases hj : j = i
  · rw [hj, Function.update_self, BindTable.entries, Function.update_self]
  · rw [Function.update_of_ne hj, BindTable.entries, Function.update_of_ne hj]
    rfl

section Table

variable {t : BindTable} {m : BindMap} {pin : Nat}

/-- A pin that no used slot has is not bound. -/
theorem lookup_none (h : Represents (BindTable.entries t) m) :
    m.lookup pin = none ↔ ∀ j, (t j).used = true → (t j).pin.toNat ≠ pin := by
  constructor
  · intro hno j hused hpin
    exact h.absent hno j (t j).binding (bindEntry_eq_some.mpr ⟨hused, hpin, rfl⟩)
  · intro hall
    cases hlook : m.lookup pin with
    | none => rfl
    | some v =>
      obtain ⟨i, hi⟩ := h.lookup.mp hlook
      obtain ⟨hused, hpin, -⟩ := bindEntry_eq_some.mp hi
      exact absurd hpin (hall i hused)

/-- There is a free slot as long as the map has room. -/
theorem map_full (h : Represents (BindTable.entries t) m) :
    m.keys.card = bindSlotCount ↔ ∀ j, (t j).used = true := by
  have hcard := h.full
  rw [Fintype.card_fin] at hcard
  rw [hcard]
  refine forall_congr' fun j => ?_
  rw [ne_eq, BindTable.entries, bindEntry_eq_none, Bool.not_eq_false]

theorem map_card_le (h : Represents (BindTable.entries t) m) : m.keys.card ≤ bindSlotCount := by
  rw [h.card]
  exact (Finset.card_filter_le ..).trans_eq (Finset.card_fin _)

/-- **`bindings_add` inserts**, or is refused as the map refuses. -/
theorem refines_add {b : Bindings} (h : Represents (BindTable.entries b.slots) m) (edge : UInt8)
    {target : List UInt8} (hnul : 0 ∉ target) (debounceMs : UInt32) :
    Represents (BindTable.entries (b.add pin edge target debounceMs).1.slots)
        ((m.bind pin edge target debounceMs).getD m) ∧
      (b.add pin edge target debounceMs).2 = (m.bind pin edge target debounceMs).isSome := by
  rcases b.add_cases pin edge target debounceMs with ⟨he, hwhy⟩ | ⟨i, hpin, hlen, hslot, -, he⟩
  · have hno : m.bind pin edge target debounceMs = none := by
      refine if_neg ?_
      rintro ⟨hpin, hlen, hroom⟩
      rcases hwhy with hbad | hlong | hfull
      · exact absurd hpin (Nat.not_le.mpr hbad)
      · exact absurd hlen (Nat.not_le.mpr hlong)
      · rcases hroom with hold | hroom
        · exact hold ((lookup_none h).mpr fun j _ => (hfull j).2)
        · exact absurd ((map_full h).mpr fun j => (hfull j).1) (Nat.ne_of_lt hroom)
    rw [he, hno]
    exact ⟨h, rfl⟩
  · have hsome : m.bind pin edge target debounceMs =
        some (m.insert pin (bindingOf pin edge target debounceMs)) := by
      refine if_pos ⟨hpin, hlen, ?_⟩
      rcases hslot with ⟨hused, heq⟩ | ⟨hfree, -⟩
      · refine .inl fun hno => ?_
        exact (lookup_none h).mp hno i hused heq
      · refine .inr (Nat.lt_of_le_of_ne (map_card_le h) fun hfull => ?_)
        exact absurd (hfree.symm.trans ((map_full h).mp hfull i)) Bool.false_ne_true
    have hentry : (boundSlot pin edge target debounceMs).entry =
        some (pin, bindingOf pin edge target debounceMs) := by
      refine bindEntry_eq_some.mpr ⟨rfl, boundSlot_pin hpin, ?_⟩
      rw [BindSlot.binding, bindingOf, boundSlot]
      dsimp only
      rw [ofBuffer_targetBuffer hnul hlen]
    rw [he, hsome]
    refine ⟨?_, rfl⟩
    rw [Bindings.refreshPinIrq_slots]
    dsimp only [Option.getD_some]
    rw [entries_update, hentry]
    refine h.insert _ ?_
    rcases hslot with ⟨hused, heq⟩ | ⟨hfree, hnone⟩
    · exact .inl ⟨(b.slots i).binding, bindEntry_eq_some.mpr ⟨hused, heq, rfl⟩⟩
    · exact .inr ⟨bindEntry_eq_none.mpr hfree, (lookup_none h).mpr hnone⟩

/-- There is nothing to erase. -/
theorem erase_none (h : m.lookup pin = none) : m.erase pin = m := by
  refine Finmap.ext_lookup fun k => ?_
  by_cases hk : k = pin
  · rw [hk, Finmap.lookup_erase, h]
  · exact Finmap.lookup_erase_ne hk

/-- **`bindings_remove` erases**, and says whether there was something to erase. -/
theorem refines_remove {b : Bindings} (h : Represents (BindTable.entries b.slots) m) (pin : Nat) :
    Represents (BindTable.entries (b.remove pin).1.slots) (m.erase pin) ∧
      (b.remove pin).2 = (m.lookup pin).isSome := by
  rcases b.remove_cases pin with ⟨he, hnone⟩ | ⟨i, hused, hpin, he⟩
  · have hno := (lookup_none h).mpr hnone
    rw [he, erase_none hno, hno]
    exact ⟨h, rfl⟩
  · have hi : BindTable.entries b.slots i = some (pin, (b.slots i).binding) :=
      bindEntry_eq_some.mpr ⟨hused, hpin, rfl⟩
    rw [he, h.lookup.mpr ⟨i, hi⟩]
    refine ⟨?_, rfl⟩
    rw [Bindings.refreshPinIrq_slots]
    show Represents (BindTable.entries (Function.update b.slots i { b.slots i with used := false }))
      _
    rw [entries_update, bindEntry_eq_none.mpr rfl]
    exact h.erase hi

/-- A table of which no slot is used. -/
theorem refines_free (h : ∀ i, (t i).used = false) : Represents (BindTable.entries t) ∅ := by
  have hnone : BindTable.entries t = fun _ => none := funext fun i => bindEntry_eq_none.mpr (h i)
  rw [hnone]
  exact represents_empty

/-- `bindings_clear_all` frees every slot. -/
theorem clearAll_free (b : Bindings) (i : Fin bindSlotCount) :
    (b.clearAll.slots i).used = false := by
  have hclear : ∀ (j : Fin bindSlotCount) (b : Bindings), (b.clear j).slots = (b.drop j).slots := by
    intro j b
    unfold Bindings.clear
    split
    · exact Bindings.refreshPinIrq_slots _ _
    · next hused =>
      have hfree : (b.slots j).used = false := Bool.eq_false_of_not_eq_true hused
      have hsame : { b.slots j with used := false } = b.slots j := by rw [← hfree]
      rw [Bindings.drop, hsame, Function.update_eq_self]
  have hall : ∀ (slots : List (Fin bindSlotCount)) (b b' : Bindings), b.slots = b'.slots →
      (slots.foldl (fun b i => b.clear i) b).slots =
          (slots.foldl (fun b i => b.drop i) b').slots := by
    intro slots
    induction slots with
    | nil => exact fun _ _ h => h
    | cons j slots ih =>
      intro b b' h
      refine ih _ _ ((hclear j b).trans ?_)
      unfold Bindings.drop
      dsimp only
      rw [h]
  rw [Bindings.clearAll, hall bindSlots b b rfl, b.foldl_drop.1]

/-- **`bindings_load`** makes the map that its record describes. -/
theorem refines_load {b : Bindings} {m : BindMap} (ds : List DiskBind)
    (h : Represents (BindTable.entries b.slots) m) :
    Represents (BindTable.entries (ds.foldl Bindings.loadEntry b).slots)
      (ds.foldl BindMap.loadEntry m) := by
  induction ds generalizing b m with
  | nil => exact h
  | cons d ds ih =>
    refine ih ?_
    unfold Bindings.loadEntry BindMap.loadEntry
    split
    · exact h
    · exact (refines_add h d.edge (CString.ofBuffer_nul _) d.debounceMs).1

/-- **Every call** does to the table what it does to the map. -/
theorem refines_next {b : Bindings} {m : BindMap} (h : Represents (BindTable.entries b.slots) m)
    (e : BindEvent) :
    Represents (BindTable.entries (b.next e).slots) (m.next e) := by
  cases e with
  | irq gpio events now =>
    rw [Bindings.next, Bindings.gpioIrqCb, entries_congr]
    · exact h
    · intro i
      dsimp only
      split <;> exact ⟨rfl, rfl, rfl⟩
  | add pin edge buf debounceMs =>
    exact (refines_add h edge (CString.ofBuffer_nul buf) debounceMs).1
  | remove pin => exact (refines_remove h pin).1
  | clearAll => exact refines_free (clearAll_free b)
  | load f =>
    unfold Bindings.next BindMap.next
    dsimp only
    cases hstored : Bindings.storedEntries f with
    | none =>
      rw [Bindings.load_none hstored]
      exact h
    | some ds =>
      rw [Bindings.load_some hstored, Bindings.install]
      refine refines_load ds (refines_free fun i => ?_)
      rw [b.foldl_drop.1]
  | visit i =>
    rw [Bindings.next, Bindings.visit]
    split
    · rw [entries_congr]
      · exact h
      · intro j
        dsimp only
        by_cases hj : j = i
        · rw [hj, Function.update_self]
          exact ⟨rfl, rfl, rfl⟩
        · rw [Function.update_of_ne hj]
          exact ⟨rfl, rfl, rfl⟩
    · exact h

end Table

/-! ## Every run -/

/-- The table and the map, each changed by its own operations. -/
structure BindStore where
  b : Bindings
  map : BindMap

def BindStore.step (s : BindStore) (e : BindEvent) : BindStore := ⟨s.b.next e, s.map.next e⟩

/-- All calls and all interrupts, from start-up. -/
def bindStores : LTS BindStore BindEvent := LTS.ofFun (· = ⟨.zero, ∅⟩) fun s e => some (s.step e)

/-- The table stands for the map, and its slots are in order. -/
structure BindingsRefine (s : BindStore) : Prop where
  map : Represents (BindTable.entries s.b.slots) s.map
  table : TableInv s.b.slots

theorem bindingsRefine_reachable {s : BindStore} (h : bindStores.Reachable s) :
    BindingsRefine s := by
  refine LTS.ReachableWhen.inv (P := BindingsRefine) h (fun s hi => ?_) fun s e s' hr _ hs => ?_
  · obtain rfl : s = _ := hi
    exact ⟨refines_free fun _ => rfl, tableInv_empty⟩
  · obtain rfl := Option.some.inj hs
    exact ⟨refines_next hr.map e, tableInv_next hr.table e⟩

theorem reachable_foldl {s : BindStore} (h : bindStores.Reachable s) (events : List BindEvent) :
    bindStores.Reachable (events.foldl BindStore.step s) := by
  induction events generalizing s with
  | nil => exact h
  | cons e events ih => exact ih (LTS.Reachable.tail h rfl)

/-- `bindings_iter` shows what the used slots hold. -/
theorem bindingsIter_eq {t : BindTable} (ht : TableInv t) :
    (bindingsIter t).map (fun p => (p.2.pin.toNat, p.2.binding)) =
      bindSlots.filterMap (BindTable.entries t) := by
  have hshow : ∀ i, (t i).used = true →
      ((t i).snapshot.pin.toNat, (t i).snapshot.binding) = ((t i).pin.toNat, (t i).binding) := by
    intro i hi
    obtain ⟨target, hnul, hlen, htarget⟩ := ht.targets i hi
    rw [BindSnapshot.binding, BindSlot.snapshot, BindSlot.binding]
    dsimp only
    rw [htarget, ofBuffer_targetBuffer hnul hlen, ofBuffer_targetBuffer hnul hlen]
  unfold bindingsIter
  rw [List.map_map]
  induction bindSlots with
  | nil => rfl
  | cons i slots ih =>
    cases hu : (t i).used with
    | true =>
      have hi : BindTable.entries t i = some ((t i).pin.toNat, (t i).binding) :=
        bindEntry_eq_some.mpr ⟨hu, rfl, rfl⟩
      rw [List.filter_cons, if_pos hu, List.map_cons, ih, List.filterMap_cons, hi]
      exact congrArg (· :: _) (hshow i hu)
    | false =>
      have hi : BindTable.entries t i = none := bindEntry_eq_none.mpr hu
      rw [List.filter_cons, if_neg (by rw [hu]; exact Bool.false_ne_true), ih,
        List.filterMap_cons, hi]

theorem bindingsCount_eq {s : BindStore} (h : BindingsRefine s) :
    bindingsCount s.b.slots = s.map.keys.card := by
  rw [h.map.card, bindingsCount, bindSlots, List.countP_eq_length_filter]
  have hsome : (Finset.univ.filter fun i => (BindTable.entries s.b.slots i).isSome = true)
      = Finset.univ.filter fun i => (s.b.slots i).used = true := by
    refine Finset.filter_congr fun i _ => ?_
    unfold BindTable.entries BindSlot.entry
    cases (s.b.slots i).used <;> simp
  rw [hsome]
  show _ = (List.filter (fun i => decide ((s.b.slots i).used = true))
    (List.finRange bindSlotCount)).length
  simp

end PicoBLE.System
