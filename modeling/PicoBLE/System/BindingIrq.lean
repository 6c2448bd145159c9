import Mathlib.Data.Fintype.Card
import PicoBLE.System.BindingOps

/-!
# The interrupts that are enabled

`refresh_pin_irq` should leave the edges of the bindings on a pin enabled and
no others. It does when there are none: then it disables both edges. When there
are some it enables them, and an edge that was enabled before stays so.

There is one binding on a pin at most, so the edges that are left over are
those of the binding before it. `bindings_add` can leave some when it replaces
a binding, and so can `bindings_load`, which forgets all bindings first and
never looks again at the pins that have none any more.
-/

namespace PicoBLE.System

open NorFlash

/-- The edges of the used bindings on a pin. -/
def wanted (pin : Nat) (t : BindTable) : Finset Edge :=
  (Finset.univ.filter fun i => (t i).used = true ∧ (t i).pin.toNat = pin).biUnion fun i =>
    edgeMask (t i).edge

/-- The hardware has what the table says. -/
def IrqExact (b : Bindings) : Prop := ∀ pin, b.enabled pin = wanted pin b.slots

variable {b : Bindings} {t : BindTable} {i : Fin bindSlotCount} {pin : Nat}

theorem mem_wanted {e : Edge} :
    e ∈ wanted pin t ↔ ∃ i, ((t i).used = true ∧ (t i).pin.toNat = pin) ∧
    e ∈ edgeMask (t i).edge := by
  simp [wanted]

/-- The loop computes the union. -/
theorem pinMask_eq (pin : Nat) (t : BindTable) : Bindings.pinMask pin t = wanted pin t := by
  have hfold : ∀ (slots : List (Fin bindSlotCount)) (mask : Finset Edge) (e : Edge),
      e ∈ slots.foldl (fun mask i => if (t i).used ∧ (t i).pin.toNat = pin then
        mask ∪ edgeMask (t i).edge else mask)
        mask ↔ e ∈ mask ∨ ∃ i ∈ slots, ((t i).used = true ∧ (t i).pin.toNat = pin) ∧
            e ∈ edgeMask (t i).edge := by
    intro slots
    induction slots with
    | nil => simp
    | cons i slots ih =>
      intro mask e
      rw [List.foldl_cons, ih]
      by_cases hon : (t i).used = true ∧ (t i).pin.toNat = pin
      · rw [if_pos hon, Finset.mem_union, or_assoc]
        simp [hon]
      · rw [if_neg hon]
        simp [hon]
  ext e
  rw [Bindings.pinMask, hfold, mem_wanted]
  simp [mem_bindSlots]

theorem wanted_congr {t' : BindTable} (h : ∀ j, (t' j).used = (t j).used ∧ (t' j).pin = (t j).pin ∧
    (t' j).edge = (t j).edge) (pin : Nat) : wanted pin t' = wanted pin t := by
  ext e
  simp only [mem_wanted, (h _).1, (h _).2.1, (h _).2.2]

theorem wanted_of_none (h : ∀ j, (t j).used = true → (t j).pin.toNat ≠ pin) : wanted pin t = ∅ := by
  refine Finset.eq_empty_of_forall_notMem fun e he => ?_
  obtain ⟨j, ⟨hj, hpin⟩, -⟩ := mem_wanted.mp he
  exact h j hj hpin

/-- Another pin does not see what is in a slot that has not been its own and is not now. -/
theorem wanted_update {s : BindSlot} (hold : (t i).used = true → (t i).pin.toNat ≠ pin)
    (hnew : s.used = true → s.pin.toNat ≠ pin) :
    wanted pin (Function.update t i s) = wanted pin t := by
  ext e
  rw [mem_wanted, mem_wanted]
  refine exists_congr fun j => ?_
  by_cases hji : j = i
  · subst hji
    rw [Function.update_self]
    exact ⟨fun h => absurd h.1.2 (hnew h.1.1), fun h => absurd h.1.2 (hold h.1.1)⟩
  · rw [Function.update_of_ne hji]

/-! ## What the operations enable -/

/-- What is enabled for a pin when it gets these edges. -/
def refreshed (before mask : Finset Edge) : Finset Edge := if mask = ∅ then ∅ else before ∪ mask

theorem refreshPinIrq_enabled (pin : Nat) (b : Bindings) : (b.refreshPinIrq pin).enabled =
    Function.update b.enabled pin (refreshed (b.enabled pin) (wanted pin b.slots)) := by
  have hnone : b.enabled pin \ {Edge.rise, Edge.fall} = ∅ := by
    ext e
    cases e <;> simp
  unfold Bindings.refreshPinIrq refreshed
  dsimp only
  rw [pinMask_eq]
  by_cases hmask : wanted pin b.slots = ∅
  · rw [if_neg (not_not_intro hmask), if_pos hmask]
    show Function.update b.enabled pin (b.enabled pin \ {Edge.rise, Edge.fall}) = _
    rw [hnone]
  · rw [if_pos hmask, if_neg hmask]
    split <;> rfl

/-- A slot is dropped, and its pin refreshed: nothing is left enabled for the pin. -/
theorem IrqExact.drop (h : IrqExact b) (ht : TableInv b.slots) (hused : (b.slots i).used = true) :
    IrqExact ((b.drop i).refreshPinIrq (b.slots i).pin.toNat) := by
  intro pin
  rw [refreshPinIrq_enabled, Bindings.refreshPinIrq_slots]
  by_cases hpin : pin = (b.slots i).pin.toNat
  · subst hpin
    have hnone : wanted (b.slots i).pin.toNat (b.drop i).slots = ∅ := by
      refine wanted_of_none fun j hj heq => ?_
      unfold Bindings.drop at hj heq
      dsimp only at hj heq
      by_cases hji : j = i
      · rw [hji, Function.update_self] at hj
        exact Bool.false_ne_true hj
      · rw [Function.update_of_ne hji] at hj heq
        exact hji (ht.pins j i hj hused (UInt8.toNat_inj.mp heq))
    rw [Function.update_self, hnone]
    rfl
  · rw [Function.update_of_ne hpin]
    refine (h pin).trans (wanted_update (fun _ heq => hpin heq.symm) fun hfalse => ?_).symm
    exact absurd hfalse Bool.false_ne_true

/-- What one binding more does to the edges, when a slot is written. -/
theorem add_irq {edge : UInt8} {target : List UInt8} {debounceMs : UInt32} (ht : TableInv b.slots)
    (hpin : pin ≤ 29) (hslot : ((b.slots i).used = true ∧ (b.slots i).pin.toNat = pin) ∨
      (b.slots i).used = false ∧ ∀ j, (b.slots j).used = true → (b.slots j).pin.toNat ≠ pin) :
    let b' := Bindings.refreshPinIrq pin
      { b with slots := Function.update b.slots i (boundSlot pin edge target debounceMs) }
    b'.enabled = Function.update b.enabled pin (refreshed (b.enabled pin) (edgeMask edge)) ∧
      ∀ p, wanted p b'.slots = if p = pin then edgeMask edge else wanted p b.slots := by
  have hnat : (boundSlot pin edge target debounceMs).pin.toNat = pin := boundSlot_pin hpin
  have hown : wanted pin (Function.update b.slots i (boundSlot pin edge target debounceMs)) =
      edgeMask edge := by
    ext e
    rw [mem_wanted]
    refine ⟨fun he => ?_, fun he => ⟨i, ?_, ?_⟩⟩
    · obtain ⟨j, ⟨hj, hjpin⟩, he⟩ := he
      by_cases hji : j = i
      · rwa [hji, Function.update_self] at he
      · rw [Function.update_of_ne hji] at hj hjpin
        exact absurd hjpin (ht.pin_other hslot hji hj)
    · rw [Function.update_self]
      exact ⟨rfl, hnat⟩
    · rwa [Function.update_self]
  refine ⟨?_, fun p => ?_⟩
  · rw [refreshPinIrq_enabled, hown]
  · rw [Bindings.refreshPinIrq_slots]
    by_cases hp : p = pin
    · rw [if_pos hp, hp, hown]
    · rw [if_neg hp]
      refine wanted_update (fun hui heq => ?_) fun _ heq => hp (heq.symm.trans hnat)
      rcases hslot with ⟨-, hpi⟩ | ⟨hfree, -⟩
      · exact hp (heq.symm.trans hpi)
      · exact absurd (hfree.symm.trans hui) Bool.false_ne_true

/-! ## One binding after the other -/

/-- A pin gets these bindings, one after the other, and none of the edges it has had since it
last had none is missing in the last. -/
def Covered (before : Finset Edge) (masks : List (Finset Edge)) : Prop :=
  ∀ m ∈ (before :: masks).reverse.takeWhile fun m => m ≠ ∅, m ⊆ masks.getLastD ∅

instance (before : Finset Edge) (masks : List (Finset Edge)) : Decidable (Covered before masks) :=
  inferInstanceAs (Decidable (∀ m ∈ List.takeWhile _ _, _))

/-- What is enabled in the end is all that the pin has had since it last had none. -/
theorem mem_foldl_refreshed {before : Finset Edge} {masks : List (Finset Edge)} {e : Edge} :
    e ∈ masks.foldl refreshed before ↔
      ∃ m ∈ (before :: masks).reverse.takeWhile fun m => m ≠ ∅, e ∈ m := by
  induction masks using List.reverseRecOn with
  | nil =>
    by_cases hb : before = ∅
    · simp [hb]
    · simp [hb]
  | append_singleton masks m ih =>
    rw [List.foldl_append, List.foldl_cons, List.foldl_nil, refreshed, ← List.cons_append,
      List.reverse_append, List.reverse_singleton, List.singleton_append]
    by_cases hm : m = ∅
    · rw [if_pos hm, List.takeWhile_cons_of_neg (by simp [hm])]
      simp
    · rw [if_neg hm, List.takeWhile_cons_of_pos (by simp [hm]), Finset.mem_union, ih]
      simp only [List.mem_cons, exists_eq_or_imp]
      exact or_comm

/-- **Exactly then the hardware ends up with the last binding's edges.** -/
theorem foldl_refreshed_iff {before : Finset Edge} {masks : List (Finset Edge)} :
    masks.foldl refreshed before = masks.getLastD ∅ ↔ Covered before masks := by
  refine ⟨fun heq m hm e he => ?_, fun hcov => ?_⟩
  · rw [← heq, mem_foldl_refreshed]
    exact ⟨m, hm, he⟩
  · ext e
    rw [mem_foldl_refreshed]
    refine ⟨fun hex => ?_, fun he => ?_⟩
    · obtain ⟨m, hm, he⟩ := hex
      exact hcov m hm he
    · rcases List.eq_nil_or_concat masks with rfl | ⟨masks', m, rfl⟩
      · exact absurd he (Finset.notMem_empty e)
      · have hlast : (masks'.concat m).getLastD ∅ = m := by simp
        rw [hlast] at he
        have hm : m ≠ ∅ := Finset.ne_empty_of_mem he
        refine ⟨m, ?_, he⟩
        rw [List.concat_eq_append, ← List.cons_append, List.reverse_append, List.reverse_singleton,
          List.singleton_append, List.takeWhile_cons_of_pos (by simp [hm])]
        exact List.mem_cons_self

/-! ## Loading -/

/-- `bindings_load` installs the entry. -/
def DiskBind.installs (d : DiskBind) : Bool :=
  d.used ≠ 0 && d.pin.toNat ≤ 29 && (CString.ofBuffer d.target.1).length ≤ bindTargetMax

/-- The bindings that a record has for a pin. -/
def storedMasks (pin : Nat) (ds : List DiskBind) : List (Finset Edge) :=
  (ds.filter fun d => d.installs && d.pin.toNat = pin).map fun d => edgeMask d.edge

/-- The slots in use. -/
def usedSlots (t : BindTable) : Finset (Fin bindSlotCount) :=
  Finset.univ.filter fun i => (t i).used = true

theorem exists_free {t : BindTable} (h : (usedSlots t).card < bindSlotCount) :
    ∃ j, (t j).used = false := by
  by_contra hall
  have huniv : usedSlots t = Finset.univ := by
    refine Finset.filter_true_of_mem fun j _ => ?_
    by_contra hj
    exact hall ⟨j, Bool.not_eq_true _ ▸ hj⟩
  rw [huniv, Finset.card_univ, Fintype.card_fin] at h
  exact Nat.lt_irrefl _ h

theorem usedSlots_update (t : BindTable) (i : Fin bindSlotCount) (s : BindSlot) :
    (usedSlots (Function.update t i s)).card ≤ (usedSlots t).card + 1 := by
  refine le_trans (Finset.card_le_card fun j hj => ?_) (Finset.card_insert_le i (usedSlots t))
  rw [Finset.mem_insert]
  by_cases hji : j = i
  · exact .inl hji
  · refine .inr ?_
    unfold usedSlots at hj ⊢
    rw [Finset.mem_filter, Function.update_of_ne hji] at hj
    rw [Finset.mem_filter]
    exact hj

/-- **One entry**, when there is a slot for it. -/
theorem loadEntry_irq {d : DiskBind} (ht : TableInv b.slots)
    (hroom : (usedSlots b.slots).card < bindSlotCount) :
    (∀ p, (b.loadEntry d).enabled p = (storedMasks p [d]).foldl refreshed (b.enabled p) ∧
      wanted p (b.loadEntry d).slots = (storedMasks p [d]).getLastD (wanted p b.slots)) ∧
    (usedSlots (b.loadEntry d).slots).card ≤ (usedSlots b.slots).card + 1 := by
  have hskip : d.installs = false → ∀ p, storedMasks p [d] = [] := by
    intro hno p
    simp [storedMasks, hno]
  unfold Bindings.loadEntry
  split
  · next hused =>
    have hno : d.installs = false := by simp [DiskBind.installs, hused]
    exact ⟨fun p => by rw [hskip hno p]; exact ⟨rfl, rfl⟩, Nat.le_succ _⟩
  · next hused =>
    rcases b.add_cases d.pin.toNat d.edge (CString.ofBuffer d.target.1) d.debounceMs with
      ⟨he, hwhy⟩ | ⟨i, hpin, hlen, hslot, -, he⟩
    · have hno : d.installs = false := by
        rcases hwhy with hpin | hlen | hfull
        · simp [DiskBind.installs, Nat.not_le_of_lt hpin]
        · simp [DiskBind.installs, Nat.not_le_of_lt hlen]
        · obtain ⟨j, hj⟩ := exists_free hroom
          exact absurd (hj.symm.trans (hfull j).1) Bool.false_ne_true
      rw [he]
      exact ⟨fun p => by rw [hskip hno p]; exact ⟨rfl, rfl⟩, Nat.le_succ _⟩
    · have hyes : d.installs = true := by simp [DiskBind.installs, hused, hpin, hlen]
      obtain ⟨henabled, hwanted⟩ :=
        @add_irq b i _ d.edge (CString.ofBuffer d.target.1) d.debounceMs ht hpin hslot
      rw [he]
      refine ⟨fun p => ?_, ?_⟩
      · by_cases hp : p = d.pin.toNat
        · have hmasks : storedMasks p [d] = [edgeMask d.edge] := by simp [storedMasks, hyes, hp]
          rw [hmasks, henabled, hwanted, if_pos hp, hp, Function.update_self]
          exact ⟨rfl, rfl⟩
        · have hmasks : storedMasks p [d] = [] := by simp [storedMasks, Ne.symm hp]
          rw [hmasks, henabled, hwanted, if_neg hp, Function.update_of_ne hp]
          exact ⟨rfl, rfl⟩
      · rw [Bindings.refreshPinIrq_slots]
        exact usedSlots_update _ _ _

theorem tableInv_loadEntry {d : DiskBind} (ht : TableInv b.slots) :
    TableInv (b.loadEntry d).slots := by
  unfold Bindings.loadEntry
  split
  · exact ht
  · exact tableInv_turn ht d.turn

/-- The loop over the entries. -/
theorem foldl_loadEntry_irq {ds : List DiskBind} (ht : TableInv b.slots)
    (hroom : (usedSlots b.slots).card + ds.length ≤ bindSlotCount) (p : Nat) :
    (ds.foldl Bindings.loadEntry b).enabled p = (storedMasks p ds).foldl refreshed (b.enabled p) ∧
      wanted p (ds.foldl Bindings.loadEntry b).slots =
        (storedMasks p ds).getLastD (wanted p b.slots) := by
  induction ds generalizing b with
  | nil => exact ⟨rfl, rfl⟩
  | cons d ds ih =>
    rw [List.length_cons] at hroom
    obtain ⟨hone, hcard⟩ := @loadEntry_irq b d ht (by omega)
    obtain ⟨henabled, hwanted⟩ := ih (@tableInv_loadEntry b d ht) (by omega)
    have hcons : storedMasks p (d :: ds) = storedMasks p [d] ++ storedMasks p ds := by
      rw [storedMasks, storedMasks, storedMasks, ← List.map_append, ← List.filter_append,
        List.singleton_append]
    rw [List.foldl_cons, henabled, hwanted, (hone p).1, (hone p).2, hcons]
    refine ⟨List.foldl_append.symm, ?_⟩
    cases hrest : storedMasks p ds with
    | nil => rw [List.append_nil]; rfl
    | cons m ms => simp

theorem storedEntries_length {f : Image} {ds : List DiskBind}
    (h : Bindings.storedEntries f = some ds) :
    ds.length ≤ bindSlotCount := by
  unfold Bindings.storedEntries at h
  dsimp only at h
  split at h
  · exact absurd h (by simp)
  · split at h
    · exact absurd h (by simp)
    · split at h
      · exact absurd h (by simp)
      · rw [← Option.some.inj h, List.length_map]
        exact le_trans (List.length_filter_le _ _) (Nat.le_of_eq List.length_finRange)

/-- **What loading leaves enabled**, and what it should. -/
theorem install_irq {ds : List DiskBind} (ht : TableInv b.slots) (hlen : ds.length ≤ bindSlotCount)
    (p : Nat) :
    (b.install ds).enabled p = (storedMasks p ds).foldl refreshed (b.enabled p) ∧
      wanted p (b.install ds).slots = (storedMasks p ds).getLastD ∅ := by
  obtain ⟨hslots, henabled⟩ := b.foldl_drop
  have hused : ∀ j, ((bindSlots.foldl (fun b i => b.drop i) b).slots j).used = false := by
    rw [hslots]
    exact fun _ => rfl
  have htable : TableInv (bindSlots.foldl (fun b i => b.drop i) b).slots :=
    ht.mono fun j hj => absurd ((hused j).symm.trans hj) Bool.false_ne_true
  have hnone : usedSlots (bindSlots.foldl (fun b i => b.drop i) b).slots = ∅ :=
    Finset.filter_eq_empty_iff.mpr fun j _ hj => Bool.false_ne_true ((hused j).symm.trans hj)
  have hload :=
    @foldl_loadEntry_irq _ ds htable (by rw [hnone, Finset.card_empty, Nat.zero_add]; exact hlen) p
  rw [henabled, wanted_of_none fun j hj => absurd ((hused j).symm.trans hj)
    Bool.false_ne_true] at hload
  exact hload

/-! ## Every call -/

/-- No edge is lost without being disabled. `bindings_add` leaves the pin all edges it had, or
none, and after `bindings_load` every pin has all the edges it has had since it last had none. -/
def KeepsEdges (b : Bindings) : BindEvent → Prop
  | .add pin edge buf _ =>
    (CString.ofBuffer buf).length ≤ bindTargetMax →
      edgeMask edge = ∅ ∨ wanted pin b.slots ⊆ edgeMask edge
  | .load f =>
    ∀ ds ∈ Bindings.storedEntries f, ∀ pin, Covered (wanted pin b.slots) (storedMasks pin ds)
  | _ => True

theorem refreshed_iff {before mask : Finset Edge} : refreshed before mask = mask ↔ mask = ∅ ∨
    before ⊆ mask := by
  unfold refreshed
  split
  · next hmask => exact ⟨fun _ => .inl hmask, fun _ => hmask.symm⟩
  · next hmask => rw [Finset.union_eq_right, or_iff_right hmask]

/-- The table is cleared slot by slot. -/
theorem irqExact_clear (ht : TableInv b.slots) (h : IrqExact b) (i : Fin bindSlotCount) :
    IrqExact (b.clear i) := by
  unfold Bindings.clear
  split
  · next hused => exact h.drop ht hused
  · exact h

theorem irqExact_clearAll (ht : TableInv b.slots) (h : IrqExact b) : IrqExact b.clearAll := by
  rw [Bindings.clearAll]
  generalize bindSlots = slots
  induction slots generalizing b with
  | nil => exact h
  | cons i slots ih => exact ih (tableInv_turn ht (.clear i)) (irqExact_clear ht h i)

/-- **One call.** It leaves the hardware as the table says exactly if it loses no edge. -/
theorem irqExact_next (ht : TableInv b.slots) (h : IrqExact b) (e : BindEvent) :
    IrqExact (b.next e) ↔ KeepsEdges b e := by
  cases e with
  | irq gpio events now =>
    refine ⟨fun _ => trivial, fun _ pin => (h pin).trans (wanted_congr (fun j => ?_) pin).symm⟩
    rw [Bindings.next, Bindings.gpioIrqCb]
    dsimp only
    split <;> exact ⟨rfl, rfl, rfl⟩
  | add pin edge buf debounceMs =>
    rw [Bindings.next, KeepsEdges]
    rcases b.add_cases pin edge (CString.ofBuffer buf) debounceMs with ⟨he, hwhy⟩
      | ⟨i, hpin, hlen, hslot, -, he⟩
    · -- refused, and then the pin has no binding or the target is too long
      rw [he]
      refine ⟨fun _ hlen => .inr ?_, fun _ => h⟩
      rw [wanted_of_none fun j hj heq => ?_]
      · exact Finset.empty_subset _
      · rcases hwhy with hpin | hlong | hfull
        · exact absurd (heq ▸ ht.range j hj) (Nat.not_le_of_lt hpin)
        · exact Nat.not_le_of_lt hlong hlen
        · exact (hfull j).2 heq
    · obtain ⟨henabled, hwanted⟩ :=
        @add_irq b i pin edge (CString.ofBuffer buf) debounceMs ht hpin hslot
      rw [he]
      refine ⟨fun hexact _ => ?_, fun hkeep p => ?_⟩
      · have hown := hexact pin
        rw [henabled, hwanted, Function.update_self, if_pos rfl, h pin] at hown
        exact refreshed_iff.mp hown
      · rw [henabled, hwanted]
        by_cases hp : p = pin
        · rw [hp, Function.update_self, if_pos rfl, h pin]
          exact refreshed_iff.mpr (hkeep hlen)
        · rw [Function.update_of_ne hp, if_neg hp]
          exact h p
  | remove pin =>
    refine ⟨fun _ => trivial, fun _ => ?_⟩
    rw [Bindings.next]
    rcases b.remove_cases pin with ⟨he, -⟩ | ⟨i, hused, rfl, he⟩
    · rw [he]; exact h
    · rw [he]
      exact h.drop ht hused
  | clearAll => exact ⟨fun _ => trivial, fun _ => irqExact_clearAll ht h⟩
  | load f =>
    rw [Bindings.next, KeepsEdges]
    cases hstored : Bindings.storedEntries f with
    | none =>
      rw [Bindings.load_none hstored]
      exact ⟨fun _ _ hds => absurd hds (by simp), fun _ => h⟩
    | some ds =>
      have hload := @install_irq b ds ht (storedEntries_length hstored)
      rw [Bindings.load_some hstored]
      refine ⟨fun hexact ds' hds p => ?_, fun hcov p => ?_⟩
      · obtain rfl := Option.some.inj hds
        have hown := hexact p
        rw [(hload p).1, (hload p).2, h p] at hown
        exact foldl_refreshed_iff.mp hown
      · rw [(hload p).1, (hload p).2, h p]
        exact foldl_refreshed_iff.mpr (hcov ds rfl p)
  | visit i =>
    refine ⟨fun _ => trivial, fun _ pin => ?_⟩
    rw [Bindings.next, Bindings.visit]
    split
    · refine (h pin).trans (wanted_congr (fun j => ?_) pin).symm
      dsimp only
      by_cases hji : j = i
      · subst hji
        rw [Function.update_self]
        exact ⟨rfl, rfl, rfl⟩
      · rw [Function.update_of_ne hji]
        exact ⟨rfl, rfl, rfl⟩
    · exact h pin

/-- **The enabled interrupts are those of the table**, as long as no call loses an edge. -/
theorem irq_exact {b : Bindings} (h : bindings.ReachableWhen KeepsEdges b) : IrqExact b := by
  have hboth : TableInv b.slots ∧ IrqExact b := by
    refine h.inv (P := fun b => TableInv b.slots ∧ IrqExact b) ?_ fun b e b' hinv hk hs => ?_
    · rintro _ rfl
      refine ⟨tableInv_empty, fun pin => ?_⟩
      exact (wanted_of_none fun _ hj => absurd hj Bool.false_ne_true).symm
    · rw [← Option.some.inj hs]
      exact ⟨tableInv_next hinv.1 e, (irqExact_next hinv.1 hinv.2 e).mpr hk⟩
  exact hboth.2

/-- Pin 2 is bound to its rising edge, and then to both. -/
def rebound (edge : UInt8) : Bindings :=
  (Bindings.zero.next (.add 2 bindEdgeHigh (CString.ascii "led on") 0)).next
    (.add 2 edge (CString.ascii "led off") 0)

theorem rebound_exact : IrqExact (rebound bindEdgeChange) := by
  refine irq_exact (.tail (.tail (.init rfl) ?_ rfl) ?_ rfl)
  · exact fun _ => .inr (by decide +kernel)
  · exact fun _ => .inr (by decide +kernel)

/-- Bound to the falling edge instead, it keeps the rising one. -/
theorem rebound_stale : ∃ b, bindings.Reachable b ∧ ¬ IrqExact b ∧
    b.enabled 2 = {.rise, .fall} ∧ wanted 2 b.slots = {.fall} := by
  have henabled : (rebound bindEdgeLow).enabled 2 = {.rise, .fall} := by decide +kernel
  have hwanted : wanted 2 (rebound bindEdgeLow).slots = {.fall} := by decide +kernel
  refine ⟨rebound bindEdgeLow, .tail (.tail (.init rfl) rfl) rfl, fun hexact => ?_,
    henabled, hwanted⟩
  have heq := hexact 2
  rw [henabled, hwanted] at heq
  exact absurd heq (by decide)

end PicoBLE.System
