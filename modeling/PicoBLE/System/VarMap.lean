import PicoBLE.Lib.LTS
import PicoBLE.Lib.SlotTable
import PicoBLE.System.Vars

/-!
# The variable store is a finite map

What `vars.c` is for is a map from names to values with room for thirty-two names.
A slot that is freed keeps its name and its value, so a slot counts only while it
is in use. `VarMap` is the map, and the table stands for it in every run.
-/

namespace PicoBLE.System

open SlotTable

/-! ## Looking at all of them -/

/-- `vars_count`. -/
def varsCount (t : VarTable) : Nat := varSlots.countP fun i => (t i).used

/-- `vars_iter`: what it calls back with. -/
def varsIter (t : VarTable) : List (List UInt8 × List UInt8) :=
  (varSlots.filter fun i => (t i).used).map fun i => ((t i).name, (t i).value)

/-! ## The map -/

/-- Names and values. -/
abbrev VarMap := Finmap fun _ : List UInt8 => List UInt8

/-- Assignment: the new map, unless the name or the value is bad or there is no room for it. -/
def VarMap.set (m : VarMap) (name value : List UInt8) : Option VarMap :=
  if validVarName name = true ∧ value.length ≤ varValueMax ∧
      (m.lookup name ≠ none ∨ m.keys.card < varMaxCount) then some (m.insert name value)
  else none

/-- What a slot holds. -/
def VarSlot.entry (s : VarSlot) : Option (List UInt8 × List UInt8) :=
  if s.used then some (s.name, s.value) else none

/-- What the table holds. -/
def VarTable.entries (t : VarTable) (i : Fin varMaxCount) : Option (List UInt8 × List UInt8) :=
  (t i).entry

theorem entry_eq_some {s : VarSlot} {name value : List UInt8} :
    s.entry = some (name, value) ↔ s.used = true ∧ s.name = name ∧ s.value = value := by
  unfold VarSlot.entry
  split
  · next h => simp [h]
  · next h => simp [h]

theorem entry_eq_none {s : VarSlot} : s.entry = none ↔ s.used = false := by
  unfold VarSlot.entry
  cases s.used <;> simp

/-- The table stands for the map, and the names in use are valid. -/
structure VarsRefine (t : VarTable) (m : VarMap) : Prop where
  map : Represents t.entries m
  valid : ∀ i, (t i).used = true → validVarName (t i).name = true

theorem mem_varSlots (i : Fin varMaxCount) : i ∈ varSlots := List.mem_finRange i

section Table

variable {t : VarTable} {m : VarMap} {name value : List UInt8}

/-- `find_slot` finds a slot in use with the name. -/
theorem findVar_some {i : Fin varMaxCount} (h : findVar name t = some i) :
    t.entries i = some (name, (t i).value) := by
  have hp := List.find?_some h
  rw [Bool.and_eq_true, decide_eq_true_eq] at hp
  exact entry_eq_some.mpr ⟨hp.1, hp.2, rfl⟩

/-- And finds nothing only if there is none. -/
theorem VarsRefine.findVar_none (h : VarsRefine t m) : findVar name t = none ↔
    m.lookup name = none := by
  constructor
  · intro hf
    cases hlook : m.lookup name with
    | none => rfl
    | some value =>
      obtain ⟨i, hi⟩ := h.map.lookup.mp hlook
      obtain ⟨hused, hname, -⟩ := entry_eq_some.mp hi
      have hno := List.find?_eq_none.mp hf i (mem_varSlots i)
      rw [hused, hname] at hno
      simp at hno
  · intro hlook
    cases hf : findVar name t with
    | none => rfl
    | some i =>
      rw [h.map.lookup.mpr ⟨i, findVar_some hf⟩] at hlook
      exact absurd hlook (by simp)

theorem freeVar_some {i : Fin varMaxCount} (h : freeVar t = some i) : t.entries i = none := by
  have hp := List.find?_some h
  exact entry_eq_none.mpr (by simpa using hp)

theorem freeVar_none : freeVar t = none ↔ ∀ i, t.entries i ≠ none := by
  unfold freeVar
  rw [List.find?_eq_none]
  refine ⟨fun h i hi => ?_, fun h i _ => ?_⟩
  · have hused := h i (mem_varSlots i)
    rw [entry_eq_none.mp hi] at hused
    simp at hused
  · have hne := fun hn => h i (entry_eq_none.mpr hn)
    simpa using hne

/-- There is a free slot as long as the map has room. -/
theorem VarsRefine.full (h : VarsRefine t m) : freeVar t = none ↔ m.keys.card = varMaxCount := by
  have hcard := h.map.full
  rw [Fintype.card_fin] at hcard
  exact freeVar_none.trans hcard.symm

theorem VarsRefine.card_le (h : VarsRefine t m) : m.keys.card ≤ varMaxCount := by
  rw [h.map.card]
  exact (Finset.card_filter_le ..).trans_eq (Finset.card_fin _)

/-! ## The calls -/

/-- **`vars_get` reads the map.** -/
theorem VarsRefine.get (h : VarsRefine t m) (name : List UInt8) :
    varsGet name t = m.lookup name := by
  unfold varsGet
  cases hf : findVar name t with
  | none => exact (h.findVar_none.mp hf).symm
  | some i => exact (h.map.lookup.mpr ⟨i, findVar_some hf⟩).symm

/-- **`vars_set` is refused** for a bad name, a long value, or a new name in a full table. -/
theorem VarsRefine.set_none (h : VarsRefine t m) (name value : List UInt8) :
    varsSet name value t = none ↔ validVarName name = false ∨ varValueMax < value.length ∨
      (m.lookup name = none ∧ m.keys.card = varMaxCount) := by
  unfold varsSet
  by_cases hv : validVarName name = true
  · rw [if_neg (not_not.mpr hv)]
    by_cases hlen : value.length > varValueMax
    · rw [if_pos hlen]
      exact ⟨fun _ => .inr (.inl hlen), fun _ => rfl⟩
    · rw [if_neg hlen]
      have hrest : (validVarName name = false ∨ varValueMax < value.length ∨
          (m.lookup name = none ∧ m.keys.card = varMaxCount)) ↔
          m.lookup name = none ∧ m.keys.card = varMaxCount := by
        rw [hv]
        simp [hlen]
      rw [hrest, ← h.findVar_none, ← h.full]
      cases findVar name t with
      | some i => simp
      | none =>
        cases freeVar t with
        | none => simp
        | some i => simp
  · rw [if_pos hv]
    exact ⟨fun _ => .inl (Bool.eq_false_of_not_eq_true hv), fun _ => rfl⟩

/-- A table with one slot written. -/
theorem entries_write (t : VarTable) (slot : Fin varMaxCount) (s : VarSlot) :
    VarTable.entries (fun i => if i = slot then s
      else t i) = Function.update t.entries slot s.entry := by
  funext i
  by_cases hi : i = slot
  · rw [hi, Function.update_self]
    show VarSlot.entry (if slot = slot then s else t slot) = _
    rw [if_pos rfl]
  · rw [Function.update_of_ne hi]
    show VarSlot.entry (if i = slot then s else t i) = _
    rw [if_neg hi]
    rfl

/-- The names stay valid if the one that is written is. -/
theorem VarsRefine.valid_write (h : VarsRefine t m) {slot : Fin varMaxCount} {s : VarSlot}
    (hs : s.used = true → validVarName s.name = true) :
    ∀ i, ((if i = slot then s else t i) : VarSlot).used = true →
      validVarName ((if i = slot then s else t i) : VarSlot).name = true := by
  intro i
  by_cases hi : i = slot
  · rw [if_pos hi]
    exact hs
  · rw [if_neg hi]
    exact h.valid i

theorem validVarName_length (h : validVarName name = true) : name.length ≤ varNameMax := by
  cases name with
  | nil => exact Nat.zero_le _
  | cons c cs =>
    rw [validVarName, Bool.and_eq_true, Bool.and_eq_true, decide_eq_true_eq] at h
    exact h.2

/-- **`vars_set` inserts.** -/
theorem VarsRefine.set_some (h : VarsRefine t m) {t' : VarTable}
    (hs : varsSet name value t = some t') :
    VarsRefine t' (m.insert name value) := by
  unfold varsSet at hs
  split at hs
  · exact absurd hs (by simp)
  · next hv =>
    have hv : validVarName name = true := by simpa using hv
    split at hs
    · exact absurd hs (by simp)
    · next hlen =>
      have htake : value.take varValueMax = value := List.take_of_length_le (Nat.le_of_not_lt hlen)
      rw [htake] at hs
      split at hs
      · next slot hfind =>
        -- the name has a slot: only its value changes
        obtain ⟨hused, hname, -⟩ := entry_eq_some.mp (findVar_some hfind)
        have ht' : t' = fun i => if i = slot then { t slot with value := value } else t i := by
          rw [← Option.some.inj hs]
          funext i
          split
          · next hi => rw [hi]
          · rfl
        rw [ht']
        refine ⟨?_, h.valid_write fun _ => h.valid slot hused⟩
        have hentry : VarSlot.entry ⟨(t slot).name, value, (t slot).used⟩ = some (name, value) :=
          entry_eq_some.mpr ⟨hused, hname, rfl⟩
        rw [entries_write]
        show Represents (Function.update t.entries slot (VarSlot.entry ⟨(t slot).name, value,
          (t slot).used⟩)) _
        rw [hentry]
        exact h.map.insert value (.inl ⟨_, findVar_some hfind⟩)
      · next hfind =>
        split at hs
        · exact absurd hs (by simp)
        · next slot hfree =>
          rw [List.take_of_length_le (validVarName_length hv)] at hs
          rw [← Option.some.inj hs]
          refine ⟨?_, h.valid_write fun _ => hv⟩
          rw [entries_write, entry_eq_some.mpr ⟨rfl, rfl, rfl⟩]
          exact h.map.insert value (.inr ⟨freeVar_some hfree, h.findVar_none.mp hfind⟩)

/-- **`vars_unset` erases.** -/
theorem VarsRefine.unset (h : VarsRefine t m) (name : List UInt8) :
    VarsRefine ((varsUnset name t).getD t) (m.erase name) := by
  unfold varsUnset
  cases hf : findVar name t with
  | none =>
    -- nothing to erase
    have hsame : m.erase name = m := by
      refine Finmap.ext_lookup fun k => ?_
      by_cases hk : k = name
      · rw [hk, Finmap.lookup_erase, h.findVar_none.mp hf]
      · exact Finmap.lookup_erase_ne hk
    rw [Option.map_none, Option.getD_none, hsame]
    exact h
  | some slot =>
    have htab : (fun i => if i = slot then { t i with used := false } else t i)
        = fun i => if i = slot then { t slot with used := false } else t i := by
      funext i
      split
      · next hi => rw [hi]
      · rfl
    rw [Option.map_some, Option.getD_some, htab]
    refine ⟨?_, h.valid_write fun hused => absurd hused Bool.false_ne_true⟩
    rw [entries_write, entry_eq_none.mpr rfl]
    exact h.map.erase (findVar_some hf)

/-- The map refuses what `vars_set` does. -/
theorem VarsRefine.map_set (h : VarsRefine t m) (name value : List UInt8) :
    m.set name value = if varsSet name value t = none then none
    else some (m.insert name value) := by
  have hno := h.set_none name value
  have hle := h.card_le
  unfold VarMap.set
  by_cases hgo : validVarName name = true ∧ value.length ≤ varValueMax ∧
      (m.lookup name ≠ none ∨ m.keys.card < varMaxCount)
  · obtain ⟨hv, hlen, hroom⟩ := hgo
    rw [if_pos ⟨hv, hlen, hroom⟩, if_neg]
    rw [hno]
    rintro (hbad | hlong | ⟨hnew, hfull⟩)
    · exact Bool.false_ne_true (hbad.symm.trans hv)
    · exact absurd hlen (Nat.not_le.mpr hlong)
    · exact hroom.elim (fun hold => hold hnew) (fun hlt => Nat.ne_of_lt hlt hfull)
  · rw [if_neg hgo, if_pos]
    rw [hno]
    by_contra hall
    obtain ⟨hv, hlen, hroom⟩ := not_or.mp hall |>.imp_right not_or.mp
    refine hgo ⟨by simpa using hv, Nat.le_of_not_lt hlen, ?_⟩
    by_cases hnew : m.lookup name = none
    · exact .inr (Nat.lt_of_le_of_ne hle fun hfull => hroom ⟨hnew, hfull⟩)
    · exact .inl hnew

/-- `vars_iter` goes through what the slots hold. -/
theorem varsIter_eq (t : VarTable) : varsIter t = varSlots.filterMap t.entries := by
  unfold varsIter
  induction varSlots with
  | nil => rfl
  | cons i slots ih =>
    cases hu : (t i).used with
    | true =>
      have hi : t.entries i = some ((t i).name, (t i).value) := entry_eq_some.mpr ⟨hu, rfl, rfl⟩
      rw [List.filter_cons, if_pos hu, List.map_cons, ih, List.filterMap_cons, hi]
    | false =>
      have hi : t.entries i = none := entry_eq_none.mpr hu
      rw [List.filter_cons, if_neg (by rw [hu]; exact Bool.false_ne_true), ih,
        List.filterMap_cons, hi]

theorem VarsRefine.count (h : VarsRefine t m) : varsCount t = m.keys.card := by
  rw [h.map.card, varsCount, varSlots, List.countP_eq_length_filter]
  have hsome : (Finset.univ.filter fun i => (t.entries i).isSome = true)
      = Finset.univ.filter fun i => (t i).used = true := by
    refine Finset.filter_congr fun i _ => ?_
    unfold VarTable.entries VarSlot.entry
    cases (t i).used <;> simp
  rw [hsome]
  show _ = (List.filter (fun i => decide ((t i).used = true)) (List.finRange varMaxCount)).length
  simp

end Table

/-! ## Every run -/

/-- The table and the map, each changed by its own operations. -/
structure VarStore where
  table : VarTable
  map : VarMap

/-- A call. -/
inductive VarOp where
  | set (name value : List UInt8)
  | unset (name : List UInt8)

/-- The call, on the table and on the map. What is refused changes nothing. -/
def VarStore.step (s : VarStore) : VarOp → VarStore
  | .set name value =>
  ⟨(varsSet name value s.table).getD s.table, (s.map.set name value).getD s.map⟩
  | .unset name => ⟨(varsUnset name s.table).getD s.table, s.map.erase name⟩

/-- All calls, from start-up. -/
def varStores : LTS VarStore VarOp :=
  LTS.ofFun (· = ⟨VarTable.empty, ∅⟩) fun s op => some (s.step op)

theorem varsRefine_step {s : VarStore} (h : VarsRefine s.table s.map) (op : VarOp) :
    VarsRefine (s.step op).table (s.step op).map := by
  cases op with
  | set name value =>
    show VarsRefine ((varsSet name value s.table).getD s.table) ((s.map.set name value).getD s.map)
    rw [h.map_set name value]
    cases hs : varsSet name value s.table with
    | none => rw [if_pos rfl]; exact h
    | some t' => rw [if_neg (by simp)]; exact h.set_some hs
  | unset name => exact h.unset name

theorem varsRefine_reachable {s : VarStore} (h : varStores.Reachable s) :
    VarsRefine s.table s.map := by
  refine LTS.ReachableWhen.inv (P := fun s => VarsRefine s.table s.map) h (fun s hi => ?_)
    fun s op s' hr _ hs => ?_
  · obtain rfl : s = _ := hi
    exact ⟨represents_empty, fun i hi => absurd hi Bool.false_ne_true⟩
  · obtain rfl := Option.some.inj hs
    exact varsRefine_step hr op

/-- **The variable store refines a finite map.** After any calls, `vars_get` is its lookup; the
slots in use have different valid names; `vars_count` is its size, and `vars_iter` visits each pair
once; and `vars_set` is refused exactly for a bad name, a long value, or a new name in a full
table. -/
theorem vars_refine {s : VarStore} (h : varStores.Reachable s) :
    (∀ name, varsGet name s.table = s.map.lookup name) ∧
    ((∀ i, (s.table i).used = true → validVarName (s.table i).name = true) ∧
      ∀ i j, (s.table i).used = true → (s.table j).used = true →
        (s.table i).name = (s.table j).name → i = j) ∧
    varsCount s.table = s.map.keys.card ∧
    ((varsIter s.table).Nodup ∧
      ∀ name value, (name, value) ∈ varsIter s.table ↔ s.map.lookup name = some value) ∧
    (∀ name value,
      (varsSet name value s.table = none ↔ validVarName name = false ∨ varValueMax < value.length ∨
        (s.map.lookup name = none ∧ s.map.keys.card = varMaxCount)) ∧
      (varsSet name value s.table = none → s.step (.set name value) = s)) := by
  have hr := varsRefine_reachable h
  refine ⟨hr.get, ⟨hr.valid, fun i j hi hj hij => ?_⟩, hr.count, ?_, fun name value =>
    ⟨hr.set_none name value, fun hno => ?_⟩⟩
  · exact hr.map.distinct (entry_eq_some.mpr ⟨hi, rfl, rfl⟩) (entry_eq_some.mpr ⟨hj, hij.symm, rfl⟩)
  · rw [varsIter_eq]
    exact hr.map.visits (List.nodup_finRange _) mem_varSlots
  · rw [VarStore.step, hr.map_set name value, if_pos hno, hno]
    rfl

/-- A name is set, given up, and set again. -/
theorem led_refines : ∃ s, varStores.Reachable s ∧
    varsGet (CString.ascii "LED") s.table = some (CString.ascii "25") ∧
    varsGet (CString.ascii "LED") s.table = s.map.lookup (CString.ascii "LED") := by
  have h₀ : varStores.Reachable ⟨VarTable.empty, ∅⟩ := .init rfl
  have h₁ :=
    h₀.tail (show varStores.step _ (.set (CString.ascii "LED") (CString.ascii "5")) _ from rfl)
  have h₂ := h₁.tail (show varStores.step _ (.unset (CString.ascii "LED")) _ from rfl)
  have h₃ :=
    h₂.tail (show varStores.step _ (.set (CString.ascii "LED") (CString.ascii "25")) _ from rfl)
  exact ⟨_, h₃, by decide +kernel, (vars_refine h₃).1 _⟩

end PicoBLE.System
