import Mathlib.Data.Finmap
import Mathlib.Data.Fintype.Card
import Mathlib.Data.Fintype.Basic
import PicoBLE.Lib.LTS
import PicoBLE.Ota.Transfer
import PicoBLE.Storage.Scripts

/-!
# The script store is a finite map

What the store is for is a map from names to texts with room for sixteen of
them. `ScriptMap` is that map and `Refines` says how the flash stands for it:

* **S1.** Every slot with a valid header holds one of the map's scripts.
* **S2.** Every script of the map is in some slot.
* **S3.** No two slots hold the same name.

Under these three the two loops over the slots find what the map says, and
rewriting or erasing the slot they find is inserting or erasing in the map.
-/

namespace PicoBLE.Storage

open NorFlash Bytes
open PicoBLE.Ota (Flash flashSectorSize eraseRange programPage picoOtaCrc32 allOk)

/-! ## The map -/

/-- Names and texts. -/
abbrev ScriptMap := Finmap fun _ : List UInt8 => List UInt8

/-- A script the store can take. -/
def Fits (name body : List UInt8) : Prop := validName name = true ∧ body.length ≤ scriptBodyMax

instance (name body : List UInt8) : Decidable (Fits name body) :=
  inferInstanceAs (Decidable (validName name = true ∧ body.length ≤ scriptBodyMax))

/-- Saving: the new map, unless the script does not fit or there is no room for it. -/
def ScriptMap.save (m : ScriptMap) (name body : List UInt8) : Option ScriptMap :=
  if Fits name body ∧ (name ∈ m ∨ m.keys.card < scriptSlotCount) then some (m.insert name body)
  else none

/-! ## A slot with a script in it -/

/-- The slot holds what `scripts_save` writes. -/
def Holds (slot : ScriptSlot) (name body : List UInt8) (f : Image) : Prop :=
  read slot.offset scriptSlotSize f = slotImage name body

section Slot

variable {slot : ScriptSlot} {name body : List UInt8} {f g : Image}

theorem validName_cons (h : validName name = true) :
    (0 : UInt8) ∉ name ∧ name.length ≤ scriptNameMax := by
  simp only [validName, Bool.and_eq_true, decide_eq_true_eq, List.all_eq_true] at h
  refine ⟨fun h0 => ?_, h.2⟩
  have hbad := h.1.2 0 h0
  exact absurd hbad (by decide)

theorem slotImage_length (h : body.length ≤ scriptBodyMax) :
    (slotImage name body).length = scriptSlotSize := by
  have hB : scriptBodyMax = 4032 := rfl
  have hH : scriptHeaderSize = 64 := rfl
  have hS : scriptSlotSize = 4096 := rfl
  rw [slotImage, List.length_append, List.length_append, ScriptHeader.encode_length,
    List.length_replicate]
  omega

/-- The header the lookup functions see. -/
theorem Holds.hdr (h : Holds slot name body f) : slotHdr slot f = sealedHeader name body := by
  have hread : read slot.offset scriptHeaderSize f = (sealedHeader name body).encode := by
    rw [← read_take (show scriptHeaderSize ≤ scriptSlotSize by decide), h, slotImage,
      List.append_assoc, List.take_left' (ScriptHeader.encode_length _)]
  unfold slotHdr
  simp only [hread]
  exact ScriptHeader.decode_encode _ _

theorem Holds.valid (h : Holds slot name body f) : slotValid slot f = true := by
  rw [slotValid, h.hdr]
  rfl

/-- The name they compare with. -/
theorem Holds.slotName_eq (h : Holds slot name body f) (hv : validName name = true) :
    slotName slot f = name := by
  obtain ⟨h0, hlen⟩ := validName_cons hv
  rw [slotName, h.hdr]
  exact (CString.ofBuffer_strncpy scriptNameMax h0).trans (List.take_of_length_le hlen)

/-- The text both readers hand out. -/
theorem Holds.text (h : Holds slot name body f) :
    read (slot.offset + scriptHeaderSize) body.length f = body := by
  have hlen := congrArg List.length h
  rw [read_length, slotImage, List.length_append, List.length_append,
    ScriptHeader.encode_length] at hlen
  obtain ⟨k, hk⟩ : ∃ k, scriptSlotSize = scriptHeaderSize + (body.length + k) :=
    ⟨_, by rw [hlen, Nat.add_assoc]⟩
  have hsplit := h
  rw [Holds, hk, read_append, read_append, slotImage, List.append_assoc] at hsplit
  have hrest := (List.append_inj hsplit (by rw [read_length, ScriptHeader.encode_length])).2
  exact (List.append_inj hrest (read_length _ _ _)).1

/-- What both readers check is in order. -/
theorem Holds.bodyLen (h : Holds slot name body f) (hb : body.length ≤ scriptBodyMax) :
    slotBodyLen slot f = some body.length := by
  have hB : scriptBodyMax = 4032 := rfl
  have hlen : (sealedHeader name body).bodyLen.toNat = body.length := by
    show (UInt32.ofNat body.length).toNat = _
    rw [UInt32.toNat_ofNat', Nat.mod_eq_of_lt (by omega)]
  rw [slotBodyLen, h.hdr, hlen, h.text, if_neg (by omega), if_neg]
  exact not_not.mpr rfl

/-- A slot holds at most one script. -/
theorem Holds.unique {name' body' : List UInt8} (h : Holds slot name body f)
    (h' : Holds slot name' body' f) (hf : Fits name body) (hf' : Fits name' body') :
    name = name' ∧ body = body' := by
  refine ⟨(h.slotName_eq hf.1).symm.trans (h'.slotName_eq hf'.1), ?_⟩
  have hlen := Option.some.inj ((h.bodyLen hf.2).symm.trans (h'.bodyLen hf'.2))
  rw [← h.text, hlen, h'.text]

/-- An erased slot is no script. -/
theorem slotValid_blank (h : Blank slot.offset scriptSlotSize f) : slotValid slot f = false := by
  have hread : read slot.offset scriptHeaderSize f = List.replicate scriptHeaderSize 0xFF :=
    read_blank (h.mono (Nat.le_refl _) (Nat.add_le_add_left (by decide) _))
  unfold slotValid slotHdr
  simp only [hread]
  rfl

/-! Nothing but the slot's own bytes counts. -/

theorem slotHdr_congr (h : read slot.offset scriptSlotSize g = read slot.offset scriptSlotSize f) :
    slotHdr slot g = slotHdr slot f := by
  have hread : read slot.offset scriptHeaderSize g = read slot.offset scriptHeaderSize f := by
    rw [← read_take (show scriptHeaderSize ≤ scriptSlotSize by decide), h, read_take (by decide)]
  unfold slotHdr
  simp only [hread]

theorem slotValid_congr
    (h : read slot.offset scriptSlotSize g = read slot.offset scriptSlotSize f) :
    slotValid slot g = slotValid slot f := by
  rw [slotValid, slotValid, slotHdr_congr h]

end Slot

/-- Different slots do not overlap. -/
theorem slot_disjoint {i j : ScriptSlot} (h : i ≠ j) :
    i.offset + scriptSlotSize ≤ j.offset ∨ j.offset + scriptSlotSize ≤ i.offset := by
  have hne : i.1 ≠ j.1 := fun he => h (Fin.ext he)
  simp only [ScriptSlot.offset, scriptSlotSize]
  omega

/-- What happens in one slot does not show in another. -/
theorem slot_frame {i j : ScriptSlot} {f g : Image} (h : SameOutside i.offset scriptSlotSize f g)
    (hne : j ≠ i) : read j.offset scriptSlotSize g = read j.offset scriptSlotSize f :=
  h.read_eq (slot_disjoint hne)

/-! ## The flash stands for the map -/

structure Refines (f : Image) (m : ScriptMap) : Prop where
  /-- S1 -/
  slot : ∀ i, slotValid i f = true →
    ∃ name body, Fits name body ∧ Holds i name body f ∧ m.lookup name = some body
  /-- S2 -/
  entry : ∀ {name body}, m.lookup name = some body → Fits name body ∧ ∃ i, Holds i name body f
  /-- S3 -/
  distinct : ∀ {i j name body body'}, validName name = true →
    Holds i name body f → Holds j name body' f → i = j

section Lookup

variable {f : Image} {m : ScriptMap} {name : List UInt8}

theorem mem_scriptSlots (i : ScriptSlot) : i ∈ scriptSlots := List.mem_finRange i

/-- `find_by_name` finds the script of that name. -/
theorem Refines.find_some (h : Refines f m) (hv : validName name = true) {i : ScriptSlot}
    (hi : findByName name f = some i) :
    ∃ body, Fits name body ∧ Holds i name body f ∧ m.lookup name = some body := by
  have hpred := List.find?_some hi
  rw [Bool.and_eq_true] at hpred
  obtain ⟨hvalid, heq⟩ := hpred
  obtain ⟨name', body, hfit, hholds, hlook⟩ := h.slot i hvalid
  -- names are short enough for the comparison to see all of them
  have hname : name' = name := by
    rw [hholds.slotName_eq hfit.1, CString.strncmpEq, decide_eq_true_eq,
      List.take_of_length_le (validName_cons hfit.1).2,
      List.take_of_length_le (validName_cons hv).2] at heq
    exact heq
  subst hname
  exact ⟨body, hfit, hholds, hlook⟩

/-- And finds nothing only if there is none. -/
theorem Refines.find_none (h : Refines f m) (hi : findByName name f = none) :
    m.lookup name = none := by
  cases hlook : m.lookup name with
  | none => rfl
  | some body =>
    obtain ⟨hfit, i, hholds⟩ := h.entry hlook
    have hno := List.find?_eq_none.mp hi i (mem_scriptSlots i)
    rw [hholds.valid, hholds.slotName_eq hfit.1, CString.strncmpEq] at hno
    simp at hno

theorem Refines.find_of_lookup_none (h : Refines f m) (hv : validName name = true)
    (hlook : m.lookup name = none) : findByName name f = none := by
  cases hi : findByName name f with
  | none => rfl
  | some i =>
    obtain ⟨body, -, -, hlook'⟩ := h.find_some hv hi
    exact absurd (hlook.symm.trans hlook') (by simp)

theorem Refines.find_of_lookup (h : Refines f m) {body : List UInt8}
    (hlook : m.lookup name = some body) :
    ∃ i, findByName name f = some i ∧ Holds i name body f := by
  obtain ⟨hfit, -⟩ := h.entry hlook
  cases hi : findByName name f with
  | none => exact absurd ((h.find_none hi).symm.trans hlook) (by simp)
  | some i =>
    obtain ⟨body', -, hholds, hlook'⟩ := h.find_some hfit.1 hi
    obtain rfl := Option.some.inj (hlook'.symm.trans hlook)
    exact ⟨i, rfl, hholds⟩

/-- **`scripts_load` reads the map.** -/
theorem Refines.load (h : Refines f m) (hv : validName name = true) (outMax : Option Nat) :
    scriptsLoad name outMax f
      = (m.lookup name).filter fun body => outMax.all fun room => body.length ≤ room := by
  cases hlook : m.lookup name with
  | none =>
    rw [scriptsLoad, h.find_of_lookup_none hv hlook]
    rfl
  | some body =>
    obtain ⟨i, hi, hholds⟩ := h.find_of_lookup hlook
    rw [scriptsLoad, hi]
    dsimp only
    rw [hholds.bodyLen (h.entry hlook).1.2]
    dsimp only
    rw [hholds.text]
    cases outMax with
    | none => rfl
    | some room =>
      rw [Option.any_some, Option.filter_some]
      by_cases hroom : body.length ≤ room
      · rw [if_neg (by simpa using hroom), if_pos (by simpa using hroom)]
      · rw [if_pos (by simpa using hroom), if_neg (by simpa using hroom)]

/-- **`scripts_open` reads the map.** -/
theorem Refines.open (h : Refines f m) (hv : validName name = true) :
    (scriptsOpen false name f).map (fun s => s.text f) = m.lookup name := by
  cases hlook : m.lookup name with
  | none =>
    rw [scriptsOpen, h.find_of_lookup_none hv hlook]
    rfl
  | some body =>
    obtain ⟨i, hi, hholds⟩ := h.find_of_lookup hlook
    rw [scriptsOpen, hi]
    dsimp only
    rw [hholds.bodyLen (h.entry hlook).1.2]
    exact congrArg some hholds.text

end Lookup

/-! ## Room -/

/-- The map has as many scripts as there are valid slots. -/
theorem Refines.card {f : Image} {m : ScriptMap} (h : Refines f m) :
    m.keys.card = (Finset.univ.filter fun i => slotValid i f = true).card := by
  have himage : m.keys = (Finset.univ.filter fun i => slotValid i f = true).image
      fun i => slotName i f := by
    ext name
    rw [Finset.mem_image]
    constructor
    · intro hmem
      obtain ⟨body, hlook⟩ := Finmap.mem_iff.mp (Finmap.mem_keys.mp hmem)
      obtain ⟨hfit, i, hholds⟩ := h.entry hlook
      exact ⟨i, Finset.mem_filter.mpr ⟨Finset.mem_univ i, hholds.valid⟩, hholds.slotName_eq hfit.1⟩
    · rintro ⟨i, hi, rfl⟩
      obtain ⟨name, body, hfit, hholds, hlook⟩ := h.slot i (Finset.mem_filter.mp hi).2
      rw [hholds.slotName_eq hfit.1]
      exact Finmap.mem_keys.mpr (Finmap.mem_iff.mpr ⟨body, hlook⟩)
  rw [himage]
  refine Finset.card_image_of_injOn fun i hi j hj hij => ?_
  obtain ⟨name, body, hfit, hholds, -⟩ := h.slot i (Finset.mem_filter.mp hi).2
  obtain ⟨name', body', hfit', hholds', -⟩ := h.slot j (Finset.mem_filter.mp hj).2
  rw [hholds.slotName_eq hfit.1, hholds'.slotName_eq hfit'.1] at hij
  subst hij
  exact h.distinct hfit.1 hholds hholds'

/-- There is a free slot exactly when the map has room. -/
theorem Refines.full {f : Image} {m : ScriptMap} (h : Refines f m) :
    m.keys.card < scriptSlotCount ↔ ∃ i, slotValid i f = false := by
  rw [h.card]
  constructor
  · intro hlt
    by_contra hno
    have hall : (Finset.univ.filter fun i => slotValid i f = true) = Finset.univ := by
      refine Finset.filter_true_of_mem fun i _ => ?_
      cases hv : slotValid i f with
      | true => rfl
      | false => exact absurd ⟨i, hv⟩ hno
    rw [hall, Finset.card_univ, Fintype.card_fin] at hlt
    exact absurd hlt (Nat.lt_irrefl _)
  · rintro ⟨i, hi⟩
    have hss : (Finset.univ.filter fun i => slotValid i f = true) ⊂ Finset.univ := by
      refine Finset.filter_ssubset.mpr ⟨i, Finset.mem_univ i, ?_⟩
      rw [hi]
      exact Bool.false_ne_true
    have hlt := Finset.card_lt_card hss
    rwa [Finset.card_univ, Fintype.card_fin] at hlt

theorem findFree_none {f : Image} : findFree f = none ↔ ∀ i, slotValid i f = true := by
  unfold findFree
  rw [List.find?_eq_none]
  constructor
  · intro h i
    simpa using h i (mem_scriptSlots i)
  · intro h i _
    rw [h i]
    simp

/-- `scripts_save` finds no slot exactly for a new name in a full store. -/
theorem Refines.slotFor_none {f : Image} {m : ScriptMap} (h : Refines f m) {name : List UInt8}
    (hv : validName name = true) :
    slotFor name f = none ↔ m.lookup name = none ∧ ∀ i, slotValid i f = true := by
  unfold slotFor
  cases hi : findByName name f with
  | none =>
    dsimp only
    rw [findFree_none]
    exact ⟨fun hall => ⟨h.find_none hi, hall⟩, fun hh => hh.2⟩
  | some i =>
    obtain ⟨body, -, -, hlook⟩ := h.find_some hv hi
    exact ⟨fun hh => absurd hh (by simp), fun hh => absurd (hlook.symm.trans hh.1) (by simp)⟩

/-! ## Changing a slot -/

section Change

variable {f g : Image} {m : ScriptMap} {slot : ScriptSlot} {name body : List UInt8}

/-- The slot that the loops choose is the only one that can hold the name. -/
theorem Refines.slotFor_some (h : Refines f m) (hv : validName name = true)
    (hi : slotFor name f = some slot) :
    (slotValid slot f = true → ∃ body, Holds slot name body f) ∧
      ∀ j body, Holds j name body f → j = slot := by
  unfold slotFor at hi
  cases hfind : findByName name f with
  | some i =>
    rw [hfind] at hi
    obtain rfl := Option.some.inj hi
    obtain ⟨body, -, hholds, -⟩ := h.find_some hv hfind
    exact ⟨fun _ => ⟨body, hholds⟩, fun j _ hj => h.distinct hv hj hholds⟩
  | none =>
    rw [hfind] at hi
    have hfree : slotValid slot f = false := by simpa using List.find?_some hi
    refine ⟨fun hvalid => absurd (hfree.symm.trans hvalid) Bool.false_ne_true, fun j body' hj => ?_⟩
    obtain ⟨name', b, hfit, hholds, hlook⟩ := h.slot j hj.valid
    have hname : name = name' := (hj.slotName_eq hv).symm.trans (hholds.slotName_eq hfit.1)
    rw [← hname, h.find_none hfind] at hlook
    exact absurd hlook (by simp)

theorem holds_frame {j : ScriptSlot} {name body : List UInt8}
    (hframe : SameOutside slot.offset scriptSlotSize f g) (hne : j ≠ slot) :
    Holds j name body g ↔ Holds j name body f := by
  unfold Holds
  rw [slot_frame hframe hne]

/-- **Filling the slot is inserting.** -/
theorem Refines.insert (h : Refines f m) (hfit : Fits name body) (hi : slotFor name f = some slot)
    (hframe : SameOutside slot.offset scriptSlotSize f g) (hholds : Holds slot name body g) :
    Refines g (m.insert name body) := by
  obtain ⟨hslot, hother⟩ := h.slotFor_some hfit.1 hi
  refine ⟨fun j hj => ?_, fun {name' body'} hlook => ?_, fun {i j name' b b'} hv h1 h2 => ?_⟩
  · by_cases hne : j = slot
    · subst hne
      exact ⟨name, body, hfit, hholds, Finmap.lookup_insert m⟩
    · rw [slotValid_congr (slot_frame hframe hne)] at hj
      obtain ⟨name', b, hfit', hholds', hlook⟩ := h.slot j hj
      have hname : name' ≠ name := by
        rintro rfl
        exact hne (hother j b hholds')
      exact ⟨name', b, hfit', (holds_frame hframe hne).mpr hholds',
        (Finmap.lookup_insert_of_ne m hname).trans hlook⟩
  · by_cases hname : name' = name
    · subst hname
      rw [Finmap.lookup_insert] at hlook
      obtain rfl := Option.some.inj hlook
      exact ⟨hfit, slot, hholds⟩
    · rw [Finmap.lookup_insert_of_ne m hname] at hlook
      obtain ⟨hfit', j, hholds'⟩ := h.entry hlook
      have hne : j ≠ slot := by
        rintro rfl
        obtain ⟨b, hb⟩ := hslot hholds'.valid
        exact hname ((hholds'.slotName_eq hfit'.1).symm.trans (hb.slotName_eq hfit.1))
      exact ⟨hfit', j, (holds_frame hframe hne).mpr hholds'⟩
  · -- a slot of the name that has just been written is the slot it was written to
    have key : ∀ k b, Holds k name' b g → name' = name → k = slot := by
      intro k b hk hname
      by_contra hne
      exact hne (hother k b (hname ▸ (holds_frame hframe hne).mp hk))
    by_cases hname : name' = name
    · exact (key i b h1 hname).trans (key j b' h2 hname).symm
    · have hne : ∀ k b, Holds k name' b g → k ≠ slot := by
        rintro k b hk rfl
        exact hname ((hk.slotName_eq hv).symm.trans (hholds.slotName_eq hfit.1))
      exact h.distinct hv ((holds_frame hframe (hne i b h1)).mp h1)
        ((holds_frame hframe (hne j b' h2)).mp h2)

/-- **Erasing the slot is erasing.** -/
theorem Refines.erase (h : Refines f m) (hv : validName name = true)
    (hslot : slotValid slot f = true → ∃ body, Holds slot name body f)
    (hother : ∀ j body, Holds j name body f → j = slot)
    (hframe : SameOutside slot.offset scriptSlotSize f g)
    (hblank : Blank slot.offset scriptSlotSize g) :
    Refines g (m.erase name) := by
  have hgone := slotValid_blank hblank
  have hne : ∀ {k name' b}, Holds k name' b g → k ≠ slot := by
    rintro k name' b hk rfl
    exact absurd (hgone.symm.trans hk.valid) Bool.false_ne_true
  refine ⟨fun j hj => ?_, fun {name' b} hlook' => ?_, fun {i j name' b b'} hv' h1 h2 => ?_⟩
  · have hj' : j ≠ slot := by
      rintro rfl
      exact absurd (hgone.symm.trans hj) Bool.false_ne_true
    rw [slotValid_congr (slot_frame hframe hj')] at hj
    obtain ⟨name', b, hfit', hholds', hlook'⟩ := h.slot j hj
    have hname : name' ≠ name := by
      rintro rfl
      exact hj' (hother j b hholds')
    exact ⟨name', b, hfit', (holds_frame hframe hj').mpr hholds',
      (Finmap.lookup_erase_ne hname).trans hlook'⟩
  · have hname : name' ≠ name := by
      rintro rfl
      exact absurd ((Finmap.lookup_erase name' m).symm.trans hlook') (by simp)
    rw [Finmap.lookup_erase_ne hname] at hlook'
    obtain ⟨hfit', j, hholds'⟩ := h.entry hlook'
    have hj : j ≠ slot := by
      rintro rfl
      obtain ⟨body, hbody⟩ := hslot hholds'.valid
      exact hname ((hholds'.slotName_eq hfit'.1).symm.trans (hbody.slotName_eq hv))
    exact ⟨hfit', j, (holds_frame hframe hj).mpr hholds'⟩
  · exact h.distinct hv' ((holds_frame hframe (hne h1)).mp h1) ((holds_frame hframe (hne h2)).mp h2)

end Change

/-! ## The two operations -/

section Operations

variable {f : Flash} {m : ScriptMap} {name body : List UInt8}

/-- What `scripts_save` comes to when it gets as far as the flash. -/
theorem scriptsSave_slot {ok : Nat → Bool} (hfit : Fits name body) {slot : ScriptSlot}
    (hi : slotFor name f.image = some slot) :
    scriptsSave ok name (some body) f = rewriteSector ok slot.offset (slotImage name body) f := by
  unfold scriptsSave
  rw [if_neg (not_not.mpr hfit.1)]
  dsimp only
  rw [if_neg (Nat.not_lt.mpr hfit.2), hi]

/-- And otherwise. -/
theorem scriptsSave_rejected {ok : Nat → Bool} (h : Fits name body → slotFor name f.image = none) :
    scriptsSave ok name (some body) f = (f, false) := by
  unfold scriptsSave
  split
  · rfl
  · next hv =>
    dsimp only
    split
    · rfl
    · next hb =>
      rw [h ⟨not_not.mp hv, Nat.le_of_not_lt hb⟩]

/-- The map has no room for the script. -/
theorem Refines.save_none (h : Refines f.image m) :
    m.save name body = none ↔
      (validName name = false ∨ scriptBodyMax < body.length ∨
        m.lookup name = none ∧ ∀ i, slotValid i f.image = true) := by
  have hfull : (¬ (name ∈ m ∨ m.keys.card < scriptSlotCount)) ↔
      m.lookup name = none ∧ ∀ i, slotValid i f.image = true := by
    rw [not_or, h.full, ← Finmap.lookup_eq_none, not_exists]
    simp
  unfold ScriptMap.save
  by_cases hfit : Fits name body
  · by_cases hroom : name ∈ m ∨ m.keys.card < scriptSlotCount
    · rw [if_pos ⟨hfit, hroom⟩]
      refine ⟨fun hh => absurd hh (by simp), fun hh => ?_⟩
      rcases hh with hh | hh | hh
      · exact absurd (hh.symm.trans hfit.1) Bool.false_ne_true
      · exact absurd hfit.2 (Nat.not_le.mpr hh)
      · exact absurd hroom (hfull.mpr hh)
    · rw [if_neg fun hh => hroom hh.2]
      exact ⟨fun _ => .inr (.inr (hfull.mp hroom)), fun _ => rfl⟩
  · rw [if_neg fun hh => hfit hh.1]
    refine ⟨fun _ => ?_, fun _ => rfl⟩
    rcases not_and_or.mp hfit with hv | hb
    · exact .inl (Bool.eq_false_iff.mpr hv)
    · exact .inr (.inl (Nat.lt_of_not_le hb))

/-- **`scripts_save` is saving in the map.** -/
theorem Refines.save (h : Refines f.image m) (name body : List UInt8) :
    (∃ m', m.save name body = some m' ∧ (scriptsSave allOk name (some body) f).2 = true ∧
      Refines (scriptsSave allOk name (some body) f).1.image m') ∨
    (m.save name body = none ∧ scriptsSave allOk name (some body) f = (f, false)) := by
  by_cases hfit : Fits name body
  · cases hi : slotFor name f.image with
    | none =>
      have hnone := (h.slotFor_none hfit.1).mp hi
      exact .inr ⟨h.save_none.mpr (.inr (.inr hnone)), scriptsSave_rejected fun _ => hi⟩
    | some slot =>
      have hsome : m.save name body = some (m.insert name body) := by
        cases hs : m.save name body with
        | some m' =>
          unfold ScriptMap.save at hs
          split at hs
          · exact hs.symm ▸ rfl
          · exact absurd hs (by simp)
        | none =>
          rcases h.save_none.mp hs with hh | hh | hh
          · exact absurd (hh.symm.trans hfit.1) Bool.false_ne_true
          · exact absurd hfit.2 (Nat.not_le.mpr hh)
          · exact absurd (((h.slotFor_none hfit.1).mpr hh).symm.trans hi) (by simp)
      have hlen := @slotImage_length name _ hfit.2
      refine .inl ⟨_, hsome, ?_, ?_⟩
      · rw [scriptsSave_slot hfit hi]
        rfl
      · rw [scriptsSave_slot hfit hi]
        refine h.insert hfit hi (rewriteSector_sameOutside allOk f (Nat.le_of_eq hlen)) ?_
        have hread :=
          @rewriteSector_read allOk slot.offset (slotImage name body) f rfl (Nat.le_of_eq hlen)
        rwa [hlen] at hread
  · refine .inr ⟨?_, scriptsSave_rejected fun hh => absurd hh hfit⟩
    unfold ScriptMap.save
    rw [if_neg fun hh => hfit hh.1]

/-- **`scripts_remove` is erasing in the map.** -/
theorem Refines.remove (h : Refines f.image m) (hv : validName name = true) :
    Refines (scriptsRemove true name f).1.image (m.erase name) ∧
      ((scriptsRemove true name f).2 = true ↔ name ∈ m) := by
  unfold scriptsRemove
  cases hi : findByName name f.image with
  | none =>
    have hnone := h.find_none hi
    have hmem : name ∉ m := Finmap.lookup_eq_none.mp hnone
    have herase : m.erase name = m := by
      refine Finmap.ext_lookup fun name' => ?_
      by_cases hname : name' = name
      · rw [hname, Finmap.lookup_erase, hnone]
      · exact Finmap.lookup_erase_ne hname
    exact ⟨by rw [herase]; exact h, fun hh => absurd hh Bool.false_ne_true, fun hh =>
      absurd hh hmem⟩
  | some slot =>
    obtain ⟨body, -, hholds, hlook⟩ := h.find_some hv hi
    refine ⟨h.erase hv (fun _ => ⟨body, hholds⟩) (fun j _ hj => h.distinct hv hj hholds)
      (erase_sameOutside _ (Nat.le_refl _) (Nat.le_refl _)) (erase_blank _ _ _), ?_⟩
    exact ⟨fun _ => Finmap.mem_iff.mpr ⟨body, hlook⟩, fun _ => rfl⟩

/-- A search that found `a`, or nothing, finds `a` once `a` fits. -/
theorem find_fits {α : Type} {p q : α → Bool} {a : α} {l : List α}
    (hne : ∀ x, x ≠ a → q x = p x) (ha : q a = true) (hmem : a ∈ l)
    (h : l.find? p = some a ∨ l.find? p = none) : l.find? q = some a := by
  induction l with
  | nil => exact absurd hmem List.not_mem_nil
  | cons x l ih =>
    rw [List.find?_cons]
    by_cases hx : x = a
    · rw [hx, ha]
    · rw [List.find?_cons, ← hne x hx] at h
      have hmem' : a ∈ l := (List.mem_cons.mp hmem).resolve_left fun he => hx he.symm
      cases hq : q x with
      | true =>
        rw [hq] at h
        rcases h with h | h
        · exact absurd (Option.some.inj h) hx
        · exact absurd h (by simp)
      | false =>
        rw [hq] at h
        exact ih hmem' h

/-- **What has been saved is what is read**, whatever else is in the slots. -/
theorem scriptsSave_load {ok : Nat → Bool} (h : (scriptsSave ok name (some body) f).2 = true) :
    scriptsLoad name none (scriptsSave ok name (some body) f).1.image = some body := by
  have hrejected : (Fits name body → slotFor name f.image = none) → False := by
    intro hno
    rw [scriptsSave_rejected hno] at h
    exact Bool.false_ne_true h
  by_cases hfit : Fits name body
  · cases hi : slotFor name f.image with
    | none => exact (hrejected fun _ => hi).elim
    | some slot =>
      rw [scriptsSave_slot hfit hi] at h ⊢
      have hlen := @slotImage_length name _ hfit.2
      have hframe := @rewriteSector_sameOutside ok slot.offset _ f (Nat.le_of_eq hlen)
      have hholds :
          Holds slot name body (rewriteSector ok slot.offset (slotImage name body) f).1.image := by
        have hread := rewriteSector_read h (Nat.le_of_eq hlen)
        rwa [hlen] at hread
      generalize (rewriteSector ok slot.offset (slotImage name body) f).1.image = g at hframe hholds
      have hold : findByName name f.image = some slot ∨ findByName name f.image = none := by
        unfold slotFor at hi
        cases hold : findByName name f.image with
        | some j =>
          rw [hold] at hi
          exact .inl hi
        | none => exact .inr rfl
      have hfind : findByName name g = some slot := by
        unfold findByName at hold ⊢
        refine find_fits (fun j hj => ?_) ?_ (mem_scriptSlots slot) hold
        · have hsame := slot_frame hframe hj
          rw [slotValid_congr hsame, slotName, slotName, slotHdr_congr hsame]
        · rw [hholds.valid, hholds.slotName_eq hfit.1, CString.strncmpEq]
          simp
      rw [scriptsLoad, hfind]
      dsimp only
      rw [hholds.bodyLen hfit.2]
      dsimp only
      rw [hholds.text]
      rfl
  · exact (hrejected fun hh => absurd hh hfit).elim

end Operations

/-! ## Every run -/

/-- The flash and the map, each changed by its own operations. -/
structure ScriptStore where
  flash : Flash
  map : ScriptMap

/-- A call of the store. -/
inductive ScriptOp where
  | save (name body : List UInt8)
  | remove (name : List UInt8)

def ScriptOp.name : ScriptOp → List UInt8
  | .save name _ => name
  | .remove name => name

/-- The call, on the flash and on the map. A map without room stays as it is. -/
def ScriptStore.step (s : ScriptStore) : ScriptOp → ScriptStore
  | .save name body =>
    ⟨(scriptsSave allOk name (some body) s.flash).1, (s.map.save name body).getD s.map⟩
  | .remove name => ⟨(scriptsRemove true name s.flash).1, s.map.erase name⟩

/-- Calls with valid names, from an erased script region and the empty map. -/
def scriptStores : LTS ScriptStore ScriptOp where
  init s := Blank scriptStorageOffset (scriptSlotCount * scriptSlotSize) s.flash.image ∧ s.map = ∅
  step s op s' := validName op.name = true ∧ s' = s.step op

/-- An erased region stands for the empty map. -/
theorem refines_blank {f : Image}
    (h : Blank scriptStorageOffset (scriptSlotCount * scriptSlotSize) f) : Refines f ∅ := by
  have hgone : ∀ i : ScriptSlot, slotValid i f = false := by
    intro i
    have hi : i.1 < 16 := i.2
    refine slotValid_blank (h.mono ?_ ?_)
    · exact Nat.le_add_right _ _
    · simp only [ScriptSlot.offset, scriptSlotSize, scriptSlotCount]
      omega
  refine ⟨fun i hi => ?_, fun hlook => ?_, fun _ h1 _ => ?_⟩
  · exact absurd ((hgone i).symm.trans hi) Bool.false_ne_true
  · exact absurd ((Finmap.lookup_empty _).symm.trans hlook) (by simp)
  · exact absurd ((hgone _).symm.trans h1.valid) Bool.false_ne_true

theorem refines_step {s s' : ScriptStore} {op : ScriptOp} (h : Refines s.flash.image s.map)
    (hs : scriptStores.step s op s') : Refines s'.flash.image s'.map := by
  obtain ⟨hv, rfl⟩ := hs
  cases op with
  | save name body =>
    rcases h.save name body with ⟨m', hm, -, hr⟩ | ⟨hm, he⟩
    · show Refines _ ((s.map.save name body).getD s.map)
      rw [hm]
      exact hr
    · show Refines (scriptsSave allOk name (some body) s.flash).1.image
        ((s.map.save name body).getD s.map)
      rw [hm, he]
      exact h
  | remove name => exact (h.remove hv).1

theorem refines_reachable {s : ScriptStore} (h : scriptStores.Reachable s) :
    Refines s.flash.image s.map := by
  refine h.inv ?_ fun _ _ _ hr _ hs => refines_step hr hs
  rintro s ⟨hblank, hmap⟩
  rw [hmap]
  exact refines_blank hblank

/-- The map at another name, after a call. -/
theorem step_lookup_ne (s : ScriptStore) {op : ScriptOp} {other : List UInt8}
    (h : other ≠ op.name) :
    (s.step op).map.lookup other = s.map.lookup other := by
  cases op with
  | remove name => exact Finmap.lookup_erase_ne h
  | save name body =>
    show ((s.map.save name body).getD s.map).lookup other = _
    unfold ScriptMap.save
    split
    · exact Finmap.lookup_insert_of_ne s.map h
    · rfl

/-- **The script store refines a finite map.** After any sequence of calls with
valid names, both readers return what the map says; a call for one name leaves
what is read for the others; no two valid slots hold the same name; and
`scripts_save` fails exactly for a bad name, a long text or a new name in a
full store, without touching the flash. -/
theorem scripts_refine {s : ScriptStore} (h : scriptStores.Reachable s) :
    (∀ name, validName name = true →
      (∀ outMax, scriptsLoad name outMax s.flash.image
        = (s.map.lookup name).filter fun body => outMax.all fun room => body.length ≤ room) ∧
      (scriptsOpen false name s.flash.image).map (fun o => o.text s.flash.image)
        = s.map.lookup name) ∧
    (∀ op other, validName op.name = true → validName other = true → other ≠ op.name →
      (∀ outMax, scriptsLoad other outMax (s.step op).flash.image
        = scriptsLoad other outMax s.flash.image) ∧
      (scriptsOpen false other (s.step op).flash.image).map (fun o =>
        o.text (s.step op).flash.image)
        = (scriptsOpen false other s.flash.image).map fun o => o.text s.flash.image) ∧
    (∀ i j, slotValid i s.flash.image = true → slotValid j s.flash.image = true →
      slotName i s.flash.image = slotName j s.flash.image → i = j) ∧
    (∀ name body, ((scriptsSave allOk name (some body) s.flash).2 = false ↔
        (validName name = false ∨ scriptBodyMax < body.length ∨
          s.map.lookup name = none ∧ ∀ i, slotValid i s.flash.image = true)) ∧
      ((scriptsSave allOk name (some body) s.flash).2 = false →
        (scriptsSave allOk name (some body) s.flash).1 = s.flash)) := by
  have hr := refines_reachable h
  refine ⟨fun name hv => ⟨hr.load hv, hr.open hv⟩, fun op other hop hv hne => ?_,
    fun i j hi hj hij => ?_, fun name body => ?_⟩
  · have hr' : Refines (s.step op).flash.image (s.step op).map := refines_step hr ⟨hop, rfl⟩
    have hlook := step_lookup_ne s hne
    refine ⟨fun outMax => ?_, ?_⟩
    · rw [hr'.load hv, hr.load hv, hlook]
    · rw [hr'.open hv, hr.open hv, hlook]
  · obtain ⟨name, body, hfit, hholds, -⟩ := hr.slot i hi
    obtain ⟨name', body', hfit', hholds', -⟩ := hr.slot j hj
    rw [hholds.slotName_eq hfit.1, hholds'.slotName_eq hfit'.1] at hij
    subst hij
    exact hr.distinct hfit.1 hholds hholds'
  · rcases hr.save name body with ⟨m', hm, hok, -⟩ | ⟨hm, he⟩
    · have hno := mt hr.save_none.mpr (by rw [hm]; simp)
      exact ⟨⟨fun hf => absurd (hf.symm.trans hok) Bool.false_ne_true, fun hh => absurd hh hno⟩,
        fun hf => absurd (hf.symm.trans hok) Bool.false_ne_true⟩
    · rw [he]
      exact ⟨⟨fun _ => hr.save_none.mp hm, fun _ => rfl⟩, fun _ => rfl⟩

/-- One script in an erased flash: `lamp` says `gpio 1`. -/
def oneScript : ScriptStore :=
  ScriptStore.step ⟨⟨fun _ => 0xFF, []⟩, ∅⟩ (.save (CString.ascii "lamp") (CString.ascii "gpio 1"))

theorem oneScript_reachable : scriptStores.Reachable oneScript := by
  have hv : validName (CString.ascii "lamp") = true := by decide
  have hstep : scriptStores.step ⟨⟨fun _ => 0xFF, []⟩, ∅⟩
      (.save (CString.ascii "lamp") (CString.ascii "gpio 1")) oneScript := ⟨hv, rfl⟩
  exact LTS.Reachable.tail (.init ⟨fun _ _ => rfl, rfl⟩) hstep

theorem oneScript_map : Refines oneScript.flash.image oneScript.map ∧
    oneScript.map.lookup (CString.ascii "lamp") = some (CString.ascii "gpio 1") := by
  have hfit : Fits (CString.ascii "lamp") (CString.ascii "gpio 1") := by decide
  refine ⟨refines_reachable oneScript_reachable, ?_⟩
  show ((ScriptMap.save ∅ _ _).getD ∅).lookup _ = _
  unfold ScriptMap.save
  rw [if_pos ⟨hfit, .inr (by simp [scriptSlotCount])⟩]
  exact Finmap.lookup_insert _

theorem oneScript_refines :
    scriptsLoad (CString.ascii "lamp") (some scriptBodyMax) oneScript.flash.image
      = some (CString.ascii "gpio 1") := by
  have hv : validName (CString.ascii "lamp") = true := by decide
  rw [((scripts_refine oneScript_reachable).1 _ hv).1, oneScript_map.2]
  decide

end PicoBLE.Storage
