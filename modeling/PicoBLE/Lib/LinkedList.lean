import Mathlib.Logic.Function.Basic
import Mathlib.Tactic.Common

/-!
# Lists linked through their elements

Each element holds a pointer to the next, and a variable points at the first.
Code that inserts goes along the list with a pointer to such a pointer, the
variable first and then the field of each element it passes, so that it can
write where it stops without a case for the front.

What a pointer leads to is a list (`Chain`). The search stops in front of the
first element that is to come later, and the insertion there puts the element
between what has been passed and the rest.
-/

/-- The variable, and the field of each element. -/
structure Links (κ : Type) where
  head : Option κ
  next : κ → Option κ

namespace Links

variable {κ : Type}

/-- What a pointer to a pointer points at. -/
inductive Slot (κ : Type) where
  | head
  | next (c : κ)

/-- `*slot`. -/
def get (r : Links κ) : Slot κ → Option κ
  | .head => r.head
  | .next c => r.next c

/-- `*slot = p`. -/
def set [DecidableEq κ] (r : Links κ) (slot : Slot κ) (p : Option κ) : Links κ :=
  match slot with
  | .head => { r with head := p }
  | .next c => { r with next := Function.update r.next c p }

/-- The elements from a pointer on. -/
inductive Chain (next : κ → Option κ) : Option κ → List κ → Prop where
  | nil : Chain next none []
  | cons {c : κ} {l : List κ} : Chain next (next c) l → Chain next (some c) (c :: l)

/-- The links stand for a list. -/
def Holds (r : Links κ) (l : List κ) : Prop := Chain r.next r.head l

/-- A chain is read off the fields of its elements. -/
theorem Chain.congr {next next' : κ → Option κ} {p : Option κ} {l : List κ} (h : Chain next p l)
    (hsame : ∀ c ∈ l, next' c = next c) : Chain next' p l := by
  induction h with
  | nil => exact .nil
  | @cons c l _ ih =>
    refine .cons ?_
    rw [hsame c List.mem_cons_self]
    exact ih fun d hd => hsame d (List.mem_cons_of_mem _ hd)

theorem Chain.unique {next : κ → Option κ} {p : Option κ} {l l' : List κ} (h : Chain next p l)
    (h' : Chain next p l') : l = l' := by
  induction h generalizing l' with
  | nil =>
    cases h'
    rfl
  | cons _ ih =>
    cases h' with
    | cons h' => rw [ih h']

/-! ## Searching -/

/-- `while (*slot && before(*slot)) slot = &(*slot)->next`, or `none` when the steps run out. -/
def findSlot (before : κ → Bool) (r : Links κ) : Nat → Slot κ → Option (Slot κ)
  | 0, _ => none
  | fuel + 1, slot =>
    match r.get slot with
    | none => some slot
    | some c => if before c then findSlot before r fuel (.next c) else some slot

/-- `while (c && !found(c)) c = c->next`, or `none` when the steps run out. -/
def find (found : κ → Bool) (r : Links κ) : Nat → Option κ → Option (Option κ)
  | 0, _ => none
  | _ + 1, none => some none
  | fuel + 1, some c => if found c then some (some c) else find found r fuel (r.next c)

/-- **The search finds** what the list has. -/
theorem Chain.find {r : Links κ} {p : Option κ} {l : List κ} (h : Chain r.next p l)
    (found : κ → Bool) {fuel : Nat} (hfuel : l.length < fuel) :
    Links.find found r fuel p = some (l.find? found) := by
  induction h generalizing fuel with
  | nil =>
    obtain ⟨fuel, rfl⟩ := Nat.exists_eq_succ_of_ne_zero (Nat.ne_of_gt hfuel)
    rfl
  | @cons c l _ ih =>
    obtain ⟨fuel, rfl⟩ :=
      Nat.exists_eq_succ_of_ne_zero (Nat.ne_of_gt (Nat.lt_of_le_of_lt (Nat.zero_le _) hfuel))
    rw [Links.find, List.find?_cons]
    cases found c with
    | true => rfl
    | false => exact ih (Nat.lt_of_succ_lt_succ hfuel)

/-! ## Insertion -/

variable [DecidableEq κ]

/-- `c->next = *slot; *slot = c`. -/
def link (r : Links κ) (c : κ) (slot : Slot κ) : Links κ :=
  (r.set (.next c) (r.get slot)).set slot (some c)

/-- No element of the list is at the slot. -/
def Slot.Outside (slot : Slot κ) (l : List κ) : Prop := ∀ c ∈ l, slot ≠ .next c

/-- The field of another element stays. -/
theorem link_next {r : Links κ} {c d : κ} {slot : Slot κ} (hd : d ≠ c) (hslot : slot ≠ .next d) :
    (r.link c slot).next d = r.next d := by
  have hset : (r.set (.next c) (r.get slot)).next d = r.next d := Function.update_of_ne hd _ _
  cases slot with
  | head => exact hset
  | next e =>
    have he : d ≠ e := fun h => hslot (h ▸ rfl)
    exact (Function.update_of_ne he _ _).trans hset

/-- Where it is linked in. -/
theorem link_get (r : Links κ) (c : κ) (slot : Slot κ) : (r.link c slot).get slot = some c := by
  cases slot with
  | head => rfl
  | next e => exact Function.update_self _ _ _

/-- And what follows it. -/
theorem link_self {r : Links κ} {c : κ} {slot : Slot κ} (h : slot ≠ .next c) :
    (r.link c slot).next c = r.get slot := by
  have hset : (r.set (.next c) (r.get slot)).next c = r.get slot := Function.update_self _ _ _
  cases slot with
  | head => exact hset
  | next e =>
    have he : c ≠ e := fun he => h (he ▸ rfl)
    exact (Function.update_of_ne he _ _).trans hset

theorem link_other {r : Links κ} {c : κ} {slot other : Slot κ} (hc : other ≠ .next c)
    (h : slot ≠ other) :
    (r.link c slot).get other = r.get other := by
  cases other with
  | head =>
    cases slot with
    | head => exact absurd rfl h
    | next e => rfl
  | next d => exact link_next (fun hd => hc (hd ▸ rfl)) h

/-- Linked in where a list begins, an element comes before it. -/
theorem Chain.link_front {r : Links κ} {c : κ} {start : Slot κ} {l : List κ}
    (h : Chain r.next (r.get start) l) (hc : c ∉ l) (hstart : start.Outside (c :: l)) :
    Chain (r.link c start).next ((r.link c start).get start) (c :: l) := by
  rw [link_get]
  refine .cons ?_
  rw [link_self (hstart c List.mem_cons_self)]
  exact h.congr fun d hd => link_next (fun heq => hc (heq ▸ hd))
    (hstart d (List.mem_cons_of_mem _ hd))

/-- **An element is inserted** in front of the first that is not to come before it: from the slot
where the search begins, the list is what has been passed, the element, and the rest. -/
theorem Chain.insert {before : κ → Bool} {r : Links κ} {c : κ} {start : Slot κ}
    {l : List κ} {fuel : Nat} (h : Chain r.next (r.get start) l) (hnodup : l.Nodup) (hc : c ∉ l)
    (hstart : start.Outside (c :: l)) (hfuel : l.length < fuel) :
    ∃ slot, r.findSlot before fuel start = some slot ∧ (slot = start ∨ ∃ d ∈ l, slot = .next d) ∧
      Chain (r.link c slot).next ((r.link c slot).get start)
        (l.takeWhile before ++ c :: l.dropWhile before) := by
  induction l generalizing start fuel with
  | nil =>
    obtain ⟨fuel, rfl⟩ := Nat.exists_eq_succ_of_ne_zero (Nat.ne_of_gt hfuel)
    have hget : r.get start = none := by
      generalize r.get start = p at h
      cases h
      rfl
    exact ⟨start, by rw [findSlot, hget], .inl rfl, h.link_front hc hstart⟩
  | cons x l ih =>
    obtain ⟨fuel, rfl⟩ :=
      Nat.exists_eq_succ_of_ne_zero (Nat.ne_of_gt (Nat.lt_of_le_of_lt (Nat.zero_le _) hfuel))
    obtain ⟨hx, hget⟩ : Chain r.next (r.get (.next x)) l ∧ r.get start = some x := by
      generalize r.get start = p at h
      cases h with
      | cons h => exact ⟨h, rfl⟩
    rw [findSlot, hget]
    dsimp only
    cases hbefore : before x with
    | false =>
      rw [List.takeWhile_cons_of_neg (by rw [hbefore]; exact Bool.false_ne_true),
        List.dropWhile_cons_of_neg (by rw [hbefore]; exact Bool.false_ne_true)]
      exact ⟨start, rfl, .inl rfl, h.link_front hc hstart⟩
    | true =>
      rw [if_pos rfl, List.takeWhile_cons_of_pos hbefore, List.dropWhile_cons_of_pos hbefore]
      obtain ⟨hxl, hnodup⟩ := List.nodup_cons.mp hnodup
      obtain ⟨hcx, hcl⟩ := not_or.mp (fun h => hc (List.mem_cons.mpr h))
      have houtside : (Slot.next x).Outside (c :: l) := by
        intro d hd heq
        obtain rfl := Slot.next.inj heq
        exact (List.mem_cons.mp hd).elim (fun h => hcx h.symm) hxl
      obtain ⟨slot, hslot, hplace, hchain⟩ :=
        ih hx hnodup hcl houtside (Nat.lt_of_succ_lt_succ hfuel)
      have hpassed : slot = .next x ∨ ∃ d ∈ l, slot = .next d := hplace
      have hne : slot ≠ start := by
        rintro rfl
        rcases hpassed with h | ⟨d, hd, h⟩
        · exact hstart x (List.mem_cons_of_mem _ List.mem_cons_self) h
        · exact hstart d (List.mem_cons_of_mem _ (List.mem_cons_of_mem _ hd)) h
      refine ⟨slot, hslot, .inr ?_, ?_⟩
      · rcases hpassed with h | ⟨d, hd, h⟩
        · exact ⟨x, List.mem_cons_self, h⟩
        · exact ⟨d, List.mem_cons_of_mem _ hd, h⟩
      · -- the slot is behind `x`, so the start still leads there
        rw [link_other (hstart c List.mem_cons_self) hne, hget]
        exact .cons hchain

/-- **Insertion into the list** of the variable. -/
theorem Holds.insert {before : κ → Bool} {r : Links κ} {c : κ} {l : List κ}
    {fuel : Nat} (h : r.Holds l) (hnodup : l.Nodup) (hc : c ∉ l) (hfuel : l.length < fuel) :
    ∃ slot, r.findSlot before fuel .head = some slot ∧
      (r.link c slot).Holds (l.takeWhile before ++ c :: l.dropWhile before) := by
  have hhead : Chain r.next (r.get .head) l := h
  obtain ⟨slot, hslot, -, hchain⟩ :=
    @Chain.insert κ _ before r c .head l fuel hhead hnodup hc (fun d _ hd => nomatch hd) hfuel
  exact ⟨slot, hslot, hchain⟩

end Links
