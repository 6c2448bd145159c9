import Mathlib.Data.Finmap
import Mathlib.Data.Fintype.Card

/-!
# Tables of slots

An array whose slots are free or hold a key and a value stands for a finite map
if no key is in it twice. `Represents` says so; writing to a slot is inserting,
freeing it is erasing, and the slots in use are the entries of the map.
-/

namespace SlotTable

variable {ι κ ν : Type} [DecidableEq κ]

/-- The slots stand for the map. -/
structure Represents (t : ι → Option (κ × ν)) (m : Finmap fun _ : κ => ν) : Prop where
  lookup : ∀ {k : κ} {v : ν}, m.lookup k = some v ↔ ∃ i, t i = some (k, v)
  /-- No key is in two slots. -/
  distinct : ∀ {i j : ι} {k : κ} {v w : ν}, t i = some (k, v) → t j = some (k, w) → i = j

variable {t : ι → Option (κ × ν)} {m : Finmap fun _ : κ => ν}

theorem represents_empty : Represents (fun _ : ι => (none : Option (κ × ν))) ∅ where
  lookup {k v} := by rw [Finmap.lookup_empty]; simp
  distinct h := absurd h (by simp)

/-- A key that the map has not is in no slot. -/
theorem Represents.absent (h : Represents t m) {k : κ} (hk : m.lookup k = none) (i : ι) (v : ν) :
    t i ≠ some (k, v) := fun hi => by
  rw [h.lookup.mpr ⟨i, hi⟩] at hk
  exact absurd hk (by simp)

section Update

variable [DecidableEq ι]

/-- **Writing to a slot is inserting**, if the slot has the key, or is free and the key is new. -/
theorem Represents.insert (h : Represents t m) {i : ι} {k : κ} (v : ν)
    (hi : (∃ w, t i = some (k, w)) ∨ t i = none ∧ m.lookup k = none) :
    Represents (Function.update t i (some (k, v))) (m.insert k v) := by
  -- the key is in no other slot
  have honly : ∀ {j w}, j ≠ i → t j ≠ some (k, w) := by
    intro j w hj htj
    rcases hi with ⟨w', hi⟩ | ⟨-, hnew⟩
    · exact hj (h.distinct htj hi)
    · exact h.absent hnew j w htj
  refine ⟨fun {k' v'} => ?_, fun {j j' k' w w'} hj hj' => ?_⟩
  · by_cases hk : k' = k
    · subst hk
      rw [Finmap.lookup_insert]
      refine ⟨fun hv => ⟨i, by rw [Function.update_self, Option.some.inj hv]⟩, fun ⟨j, hj⟩ => ?_⟩
      by_cases hji : j = i
      · rw [hji, Function.update_self] at hj
        exact congrArg some (Prod.mk.inj (Option.some.inj hj)).2
      · rw [Function.update_of_ne hji] at hj
        exact absurd hj (honly hji)
    · rw [Finmap.lookup_insert_of_ne m hk, h.lookup]
      refine ⟨fun ⟨j, hj⟩ => ⟨j, ?_⟩, fun ⟨j, hj⟩ => ⟨j, ?_⟩⟩
      · -- it is not the slot that is written to
        have hji : j ≠ i := by
          rintro rfl
          rcases hi with ⟨w, hi⟩ | ⟨hi, -⟩
          · exact hk (Prod.mk.inj (Option.some.inj (hj.symm.trans hi))).1
          · exact absurd (hj.symm.trans hi) (by simp)
        rw [Function.update_of_ne hji, hj]
      · by_cases hji : j = i
        · rw [hji, Function.update_self] at hj
          exact absurd (Prod.mk.inj (Option.some.inj hj)).1.symm hk
        · rwa [Function.update_of_ne hji] at hj
  · by_cases hji : j = i
    · by_cases hji' : j' = i
      · rw [hji, hji']
      · rw [hji, Function.update_self] at hj
        rw [Function.update_of_ne hji', ← (Prod.mk.inj (Option.some.inj hj)).1] at hj'
        exact absurd hj' (honly hji')
    · rw [Function.update_of_ne hji] at hj
      by_cases hji' : j' = i
      · rw [hji', Function.update_self] at hj'
        rw [← (Prod.mk.inj (Option.some.inj hj')).1] at hj
        exact absurd hj (honly hji)
      · rw [Function.update_of_ne hji'] at hj'
        exact h.distinct hj hj'

/-- **Freeing a slot is erasing its key.** -/
theorem Represents.erase (h : Represents t m) {i : ι} {k : κ} {w : ν} (hi : t i = some (k, w)) :
    Represents (Function.update t i none) (m.erase k) := by
  have hother : ∀ {j k' v}, Function.update t i none j = some (k', v) ↔
      t j = some (k', v) ∧ j ≠ i := by
    intro j k' v
    by_cases hji : j = i
    · rw [hji, Function.update_self]
      simp
    · rw [Function.update_of_ne hji]
      simp [hji]
  refine ⟨fun {k' v'} => ?_, fun {j j' k' w w'} hj hj' => ?_⟩
  · by_cases hk : k' = k
    · subst hk
      rw [Finmap.lookup_erase]
      refine ⟨fun hv => absurd hv (by simp), fun ⟨j, hj⟩ => ?_⟩
      obtain ⟨hj, hne⟩ := hother.mp hj
      exact absurd (h.distinct hj hi) hne
    · rw [Finmap.lookup_erase_ne hk, h.lookup]
      refine exists_congr fun j => hother.trans (and_iff_left_of_imp fun hj => ?_) |>.symm
      rintro rfl
      exact hk (Prod.mk.inj (Option.some.inj (hj.symm.trans hi))).1
  · exact h.distinct (hother.mp hj).1 (hother.mp hj').1

end Update

/-! ## Counting -/

section Card

variable [Fintype ι]

/-- **There are as many slots in use as entries.** -/
theorem Represents.card (h : Represents t m) :
    m.keys.card = (Finset.univ.filter fun i => (t i).isSome = true).card := by
  refine (Finset.card_bij (fun i hi => ((t i).get (Finset.mem_filter.mp hi).2).1) ?_ ?_ ?_).symm
  · intro i hi
    obtain ⟨kv, hkv⟩ := Option.isSome_iff_exists.mp (Finset.mem_filter.mp hi).2
    refine Finmap.mem_keys.mpr (Finmap.mem_iff.mpr ⟨kv.2, h.lookup.mpr ⟨i, ?_⟩⟩)
    simp [hkv]
  · intro i hi j hj heq
    obtain ⟨kv, hkv⟩ := Option.isSome_iff_exists.mp (Finset.mem_filter.mp hi).2
    obtain ⟨kv', hkv'⟩ := Option.isSome_iff_exists.mp (Finset.mem_filter.mp hj).2
    simp only [hkv, hkv', Option.get_some] at heq
    refine h.distinct (k := kv.1) (v := kv.2) (w := kv'.2) hkv ?_
    rw [hkv', heq]
  · intro k hk
    obtain ⟨v, hv⟩ := Finmap.mem_iff.mp (Finmap.mem_keys.mp hk)
    obtain ⟨i, hi⟩ := h.lookup.mp hv
    exact ⟨i, Finset.mem_filter.mpr ⟨Finset.mem_univ i, by rw [hi]; rfl⟩, by simp [hi]⟩

/-- A map with a key for every slot leaves none free. -/
theorem Represents.full (h : Represents t m) : m.keys.card = Fintype.card ι ↔ ∀ i, t i ≠ none := by
  rw [h.card, Finset.card_eq_iff_eq_univ, Finset.filter_eq_self]
  exact forall_congr' fun i => by rw [Option.isSome_iff_ne_none]; simp

end Card

/-! ## Visiting -/

/-- **Going through the slots visits every entry once.** -/
theorem Represents.visits (h : Represents t m) {slots : List ι} (hn : slots.Nodup)
    (hall : ∀ i, i ∈ slots) :
    (slots.filterMap t).Nodup ∧ ∀ k v, (k, v) ∈ slots.filterMap t ↔ m.lookup k = some v := by
  refine ⟨?_, fun k v => ?_⟩
  · refine List.Nodup.filterMap (fun i j kv hi hj => ?_) hn
    exact h.distinct (k := kv.1) (v := kv.2) (w := kv.2) hi hj
  · rw [List.mem_filterMap, h.lookup]
    exact ⟨fun ⟨i, _, hi⟩ => ⟨i, hi⟩, fun ⟨i, hi⟩ => ⟨i, hall i, hi⟩⟩

end SlotTable
