import PicoBLE.Storage.FailedSave

/-!
# Which script a name finds

`find_by_name` compares 31 characters, the longest name there can be, and does
not look at what comes after them. Names that are saved have no more than that,
so among them the comparison is exact. `scripts_load`, `scripts_open` and
`scripts_remove` do not check the name they are given. A longer one finds the
script that is called as its first 31 characters.

The flash cannot say under which name a slot was saved, since what it holds is
what the lookup reads. So a record of the saves runs alongside.
-/

namespace PicoBLE.Storage

open NorFlash
open PicoBLE.Ota (Flash allOk eraseRange)

/-! ## The saves, on record -/

/-- The flash, and the name each slot was last saved under. -/
structure NamedScripts where
  flash : Flash
  savedAs : ScriptSlot → Option (List UInt8)

/-- The slot that a save erases. -/
def savedTo (ok : Nat → Bool) (name : List UInt8) (body : Option (List UInt8)) (f : Flash) :
    Option ScriptSlot :=
  match body with
  | none => none
  | some text => if Fits name text ∧ ok 0 = true then slotFor name f.image else none

/-- The slot that a remove erases. -/
def removedFrom (ok : Bool) (name : List UInt8) (f : Flash) : Option ScriptSlot :=
  if ok then findByName name f.image else none

/-- Put on record what became of a slot, if any was touched. -/
def NamedScripts.record (w : NamedScripts) (slot : Option ScriptSlot) (name : Option (List UInt8))
    (f : Flash) : NamedScripts where
  flash := f
  savedAs i := if slot = some i then name else w.savedAs i

/-- `scripts_save`. An erased slot that could not be programmed is saved under no name. -/
def NamedScripts.save (w : NamedScripts) (ok : Nat → Bool) (name : List UInt8)
    (body : Option (List UInt8)) : NamedScripts :=
  let r := scriptsSave ok name body w.flash
  w.record (savedTo ok name body w.flash) (if r.2 then some name else none) r.1

/-- `scripts_remove`. -/
def NamedScripts.remove (w : NamedScripts) (ok : Bool) (name : List UInt8) : NamedScripts :=
  w.record (removedFrom ok name w.flash) none (scriptsRemove ok name w.flash).1

/-- `scriptFlash`, with the record. -/
def namedScripts : LTS NamedScripts FlashEvent where
  init w := Blank scriptStorageOffset (scriptSlotCount * scriptSlotSize) w.flash.image ∧
    ∀ i, w.savedAs i = none
  step w e w' :=
    match e with
    | .save ok name body => w' = w.save ok name body
    | .remove ok name => w' = w.remove ok name
    | .elsewhere g => w' = { w with flash := g } ∧ ∀ i : ScriptSlot,
        read i.offset scriptSlotSize g.image = read i.offset scriptSlotSize w.flash.image

/-! ## The record says what is in the slots -/

/-- The name a slot can be found by. -/
def storedName (i : ScriptSlot) (f : Image) : Option (List UInt8) :=
  if slotValid i f then some (slotName i f) else none

section StoredName

variable {i slot : ScriptSlot} {f g : Image} {name body : List UInt8}

theorem storedName_congr (h : read i.offset scriptSlotSize g = read i.offset scriptSlotSize f) :
    storedName i g = storedName i f := by
  unfold storedName slotName
  rw [slotValid_congr h, slotHdr_congr h]

theorem storedName_blank (h : Blank i.offset scriptSlotSize f) : storedName i f = none := by
  unfold storedName
  rw [slotValid_blank h]
  rfl

theorem Holds.storedName (h : Holds i name body f) (hv : validName name = true) :
    storedName i f = some name := by
  unfold PicoBLE.Storage.storedName
  rw [h.valid, h.slotName_eq hv]
  rfl

end StoredName

/-- **N1.** The flash stands for some map. **N2.** The record is right. -/
structure Recorded (w : NamedScripts) : Prop where
  map : ∃ m, Refines w.flash.image m
  names : ∀ i, w.savedAs i = storedName i w.flash.image

/-- One slot was touched, and the record has its name. -/
theorem Recorded.record {w : NamedScripts} (h : Recorded w) {slot : ScriptSlot}
    {name : Option (List UInt8)} {f : Flash} (hmap : ∃ m, Refines f.image m)
    (hframe : SameOutside slot.offset scriptSlotSize w.flash.image f.image)
    (hname : storedName slot f.image = name) : Recorded (w.record (some slot) name f) := by
  refine ⟨hmap, fun i => ?_⟩
  show (if some slot = some i then name else w.savedAs i) = storedName i f.image
  by_cases hi : slot = i
  · rw [if_pos (congrArg some hi), ← hname, hi]
  · rw [if_neg fun he => hi (Option.some.inj he), h.names i,
      storedName_congr (slot_frame hframe fun he => hi he.symm)]

/-- No slot was. -/
theorem Recorded.untouched {w : NamedScripts} (h : Recorded w) (name : Option (List UInt8)) :
    Recorded (w.record none name w.flash) := by
  refine ⟨h.map, fun i => ?_⟩
  show (if none = some i then name else w.savedAs i) = storedName i w.flash.image
  rw [if_neg (Option.some_ne_none i).symm, h.names i]

theorem Recorded.save {w : NamedScripts} (h : Recorded w) (ok : Nat → Bool) (name : List UInt8)
    (body : Option (List UInt8)) : Recorded (w.save ok name body) := by
  have hmap : ∃ m, Refines (scriptsSave ok name body w.flash).1.image m :=
    refines_anyStep (e := .save ok name body) h.map rfl
  -- a save that is refused, or whose erase fails, leaves the flash as it is
  have hstay : savedTo ok name body w.flash = none →
      scriptsSave ok name body w.flash = (w.flash, false) →
      Recorded (w.save ok name body) := by
    intro hnone he
    unfold NamedScripts.save
    rw [hnone, he]
    exact h.untouched _
  cases body with
  | none =>
    refine hstay rfl ?_
    unfold scriptsSave
    split <;> rfl
  | some text =>
    by_cases hfit : Fits name text
    · cases hi : slotFor name w.flash.image with
      | none =>
        refine hstay ?_ (scriptsSave_rejected fun _ => hi)
        unfold savedTo
        dsimp only
        rw [hi, ite_self]
      | some slot =>
        have hlen := @slotImage_length name _ hfit.2
        have hframe := @rewriteSector_sameOutside ok slot.offset (slotImage name text) w.flash
          (Nat.le_of_eq hlen)
        have hsave : scriptsSave ok name (some text) w.flash
            = rewriteSector ok slot.offset (slotImage name text) w.flash := scriptsSave_slot hfit hi
        have hto : ok 0 = true → savedTo ok name (some text) w.flash = some slot := by
          intro h0
          unfold savedTo
          dsimp only
          rw [if_pos ⟨hfit, h0⟩, hi]
        rw [hsave] at hmap
        rcases rewriteSector_cases ok slot.offset (slotImage name text) w.flash with
          ⟨h0, he⟩ | ⟨h0, -, g, he, himg⟩ | ⟨h0, -, g, he, -⟩
        · refine hstay ?_ (hsave.trans he)
          unfold savedTo
          dsimp only
          rw [if_neg fun hh => Bool.false_ne_true (h0.symm.trans hh.2)]
        · unfold NamedScripts.save
          rw [hto h0, hsave]
          refine h.record hmap hframe ?_
          rw [he]
          refine storedName_blank ?_
          rw [himg]
          exact erase_blank _ _ _
        · unfold NamedScripts.save
          rw [hto h0, hsave]
          refine h.record hmap hframe ?_
          have hread :=
            @rewriteSector_read ok slot.offset (slotImage name text) w.flash (by rw [he])
            (Nat.le_of_eq hlen)
          rw [hlen] at hread
          rw [Holds.storedName hread hfit.1, he]
          rfl
    · refine hstay ?_ (scriptsSave_rejected fun hh => absurd hh hfit)
      unfold savedTo
      dsimp only
      rw [if_neg fun hh => hfit hh.1]

theorem Recorded.remove {w : NamedScripts} (h : Recorded w) (ok : Bool) (name : List UInt8) :
    Recorded (w.remove ok name) := by
  have hmap : ∃ m, Refines (scriptsRemove ok name w.flash).1.image m :=
    refines_anyStep (e := .remove ok name) h.map rfl
  unfold NamedScripts.remove removedFrom
  unfold scriptsRemove at hmap ⊢
  cases hi : findByName name w.flash.image with
  | none =>
    rw [ite_self]
    exact h.untouched _
  | some slot =>
    rw [hi] at hmap
    cases ok with
    | false => exact h.untouched _
    | true =>
      exact h.record hmap (erase_sameOutside _ (Nat.le_refl _) (Nat.le_refl _))
        (storedName_blank (erase_blank _ _ _))

theorem recorded_step {w w' : NamedScripts} {e : FlashEvent} (h : Recorded w)
    (hs : namedScripts.step w e w') : Recorded w' := by
  cases e with
  | save ok name body =>
    obtain rfl : w' = w.save ok name body := hs
    exact h.save ok name body
  | remove ok name =>
    obtain rfl : w' = w.remove ok name := hs
    exact h.remove ok name
  | elsewhere g =>
    obtain ⟨rfl, hsame⟩ := hs
    refine ⟨refines_anyStep (e := .elsewhere g) h.map ⟨rfl, hsame⟩, fun i => ?_⟩
    show w.savedAs i = storedName i g.image
    rw [h.names i, storedName_congr (hsame i)]

theorem recorded_reachable {w : NamedScripts} (h : namedScripts.Reachable w) : Recorded w := by
  refine h.inv ?_ fun _ _ _ hr _ hs => recorded_step hr hs
  rintro w ⟨hblank, hnone⟩
  have hr := refines_blank hblank
  refine ⟨⟨∅, hr⟩, fun i => ?_⟩
  rw [hnone i, storedName]
  cases hv : slotValid i w.flash.image with
  | false => rfl
  | true =>
    obtain ⟨name, body, -, -, hlook⟩ := hr.slot i hv
    exact absurd ((Finmap.lookup_empty _).symm.trans hlook) (by simp)

/-! ## What a name finds -/

/-- The lookup does not see past the 31st character. -/
theorem findByName_take (name : List UInt8) (f : Image) :
    findByName name f = findByName (name.take scriptNameMax) f := by
  simp only [findByName, CString.strncmpEq, List.take_take, Nat.min_self]

/-- No slot has a longer name. -/
theorem Recorded.length_le {w : NamedScripts} (h : Recorded w) {i : ScriptSlot} {name : List UInt8}
    (hi : w.savedAs i = some name) : slotValid i w.flash.image = true ∧
      slotName i w.flash.image = name ∧ name.length ≤ scriptNameMax := by
  rw [h.names i, storedName] at hi
  cases hv : slotValid i w.flash.image with
  | false =>
    rw [hv] at hi
    exact absurd hi (by simp)
  | true =>
    rw [hv] at hi
    obtain rfl := Option.some.inj hi
    obtain ⟨m, hm⟩ := h.map
    obtain ⟨name', body, hfit, hholds, -⟩ := hm.slot i hv
    refine ⟨rfl, rfl, ?_⟩
    rw [hholds.slotName_eq hfit.1]
    exact (validName_cons hfit.1).2

/-- **The lookup goes by the first 31 characters.** -/
theorem Recorded.find_some {w : NamedScripts} (h : Recorded w) {name : List UInt8} {i : ScriptSlot}
    (hi : findByName name w.flash.image = some i) :
    w.savedAs i = some (name.take scriptNameMax) := by
  have hpred := List.find?_some hi
  rw [Bool.and_eq_true] at hpred
  obtain ⟨hv, heq⟩ := hpred
  have hsaved : w.savedAs i = some (slotName i w.flash.image) := by
    rw [h.names i, storedName, if_pos hv]
  have hlen := (h.length_le hsaved).2.2
  rw [CString.strncmpEq, decide_eq_true_eq, List.take_of_length_le hlen] at heq
  rw [hsaved, heq]

theorem Recorded.find_none {w : NamedScripts} (h : Recorded w) {name : List UInt8}
    (hi : findByName name w.flash.image = none) (i : ScriptSlot) :
    w.savedAs i ≠ some (name.take scriptNameMax) := by
  intro hsaved
  obtain ⟨hv, hname, -⟩ := h.length_le hsaved
  have hno := List.find?_eq_none.mp hi i (mem_scriptSlots i)
  rw [hv, hname, CString.strncmpEq, List.take_take, Nat.min_self] at hno
  simp at hno

/-! ## Exactly when lookup is exact -/

/-- What is found was saved under this very name, and a name that is not stored
reads, opens and removes nothing. -/
def ExactLookup (name : List UInt8) (w : NamedScripts) : Prop :=
  (∀ slot, findByName name w.flash.image = some slot → w.savedAs slot = some name) ∧
  ((∀ slot, w.savedAs slot ≠ some name) →
    (∀ outMax, scriptsLoad name outMax w.flash.image = none) ∧
    (∀ gOpen, scriptsOpen gOpen name w.flash.image = none) ∧
    ∀ ok, scriptsRemove ok name w.flash = (w.flash, false))

/-- What finds nothing does nothing. -/
theorem lookup_absent {name : List UInt8} {f : Flash} (h : findByName name f.image = none) :
    (∀ outMax, scriptsLoad name outMax f.image = none) ∧
    (∀ gOpen, scriptsOpen gOpen name f.image = none) ∧
    ∀ ok, scriptsRemove ok name f = (f, false) := by
  refine ⟨fun outMax => ?_, fun gOpen => ?_, fun ok => ?_⟩
  · unfold scriptsLoad
    rw [h]
  · unfold scriptsOpen
    rw [h, ite_self]
  · unfold scriptsRemove
    rw [h]

/-- **Lookup is exact unless the name goes on where a stored one of 31 characters ends.** -/
theorem exact_lookup {w : NamedScripts} (h : namedScripts.Reachable w) (name : List UInt8) :
    ExactLookup name w ↔
      ¬ (scriptNameMax < name.length ∧
        ∃ slot, w.savedAs slot = some (name.take scriptNameMax)) := by
  have hr := recorded_reachable h
  constructor
  · rintro ⟨hexact, -⟩ ⟨hlong, slot, hslot⟩
    cases hi : findByName name w.flash.image with
    | none => exact hr.find_none hi slot hslot
    | some j =>
      have hj : name.take scriptNameMax = name :=
        Option.some.inj ((hr.find_some hi).symm.trans (hexact j hi))
      have hlen := congrArg List.length hj
      rw [List.length_take] at hlen
      omega
  · intro hno
    have hexact : ∀ slot, findByName name w.flash.image = some slot →
        w.savedAs slot = some name := by
      intro slot hi
      have hslot := hr.find_some hi
      rcases Nat.lt_or_ge scriptNameMax name.length with hlong | hshort
      · exact absurd ⟨hlong, slot, hslot⟩ hno
      · rwa [List.take_of_length_le hshort] at hslot
    refine ⟨hexact, fun hnone => lookup_absent ?_⟩
    cases hi : findByName name w.flash.image with
    | none => rfl
    | some slot => exact absurd (hexact slot hi) (hnone slot)

/-! ## A name of 31 characters -/

def greenhouse : List UInt8 := CString.ascii "pump-schedule-of-the-greenhouse"

/-- A 32nd. -/
def greenhouse2 : List UInt8 := CString.ascii "pump-schedule-of-the-greenhouse2"

/-- The one script in the flash. -/
def greenhouseSaved : NamedScripts :=
  NamedScripts.save ⟨⟨fun _ => 0xFF, []⟩, fun _ => none⟩ allOk greenhouse
    (some (CString.ascii "gpio 1"))

theorem greenhouseSaved_reachable : namedScripts.Reachable greenhouseSaved := by
  have hstep : namedScripts.step ⟨⟨fun _ => 0xFF, []⟩, fun _ => none⟩
      (.save allOk greenhouse (some (CString.ascii "gpio 1"))) greenhouseSaved := rfl
  exact LTS.Reachable.tail (.init ⟨fun _ _ => rfl, fun _ => rfl⟩) hstep

theorem greenhouseSaved_text :
    scriptsLoad greenhouse none greenhouseSaved.flash.image = some (CString.ascii "gpio 1") := by
  have hfit : Fits greenhouse (CString.ascii "gpio 1") := by decide
  have hr : Refines (fun _ => 0xFF) ∅ := refines_blank fun _ _ => rfl
  rcases Refines.save (f := ⟨fun _ => 0xFF, []⟩) hr greenhouse (CString.ascii "gpio 1") with
    ⟨-, -, hyes, -⟩ | ⟨hno, -⟩
  · exact scriptsSave_load hyes
  · unfold ScriptMap.save at hno
    rw [if_pos ⟨hfit, .inr (by simp [scriptSlotCount])⟩] at hno
    exact absurd hno (by simp)

/-- The short name is looked up exactly. -/
theorem greenhouse_exact : ExactLookup greenhouse greenhouseSaved := by
  have hshort : ¬ scriptNameMax < greenhouse.length := by decide
  exact (exact_lookup greenhouseSaved_reachable greenhouse).mpr fun hh => hshort hh.1

/-- Nothing was saved as `pump-schedule-of-the-greenhouse2`. It loads the other
script, and removing it removes that one. -/
theorem greenhouse2_found : namedScripts.Reachable greenhouseSaved ∧
    (∀ slot, greenhouseSaved.savedAs slot ≠ some greenhouse2) ∧
    scriptsLoad greenhouse2 none greenhouseSaved.flash.image = some (CString.ascii "gpio 1") ∧
    (scriptsOpen false greenhouse2 greenhouseSaved.flash.image).isSome ∧
    (scriptsRemove true greenhouse2 greenhouseSaved.flash).2 = true ∧
    scriptsLoad greenhouse none (scriptsRemove true greenhouse2 greenhouseSaved.flash).1.image =
      none := by
  have hr := recorded_reachable greenhouseSaved_reachable
  have htext := greenhouseSaved_text
  have hv : validName greenhouse = true := by decide
  have hfind : findByName greenhouse2 greenhouseSaved.flash.image
      = findByName greenhouse greenhouseSaved.flash.image := by
    have htake : greenhouse2.take scriptNameMax = greenhouse := by decide
    rw [findByName_take, htake]
  obtain ⟨m, hm⟩ := hr.map
  have hlook : m.lookup greenhouse = some (CString.ascii "gpio 1") := by
    rw [hm.load hv] at htext
    exact (Option.filter_eq_some_iff.mp htext).1
  obtain ⟨i, hi, hholds⟩ := hm.find_of_lookup hlook
  have hremove : scriptsRemove true greenhouse2 greenhouseSaved.flash
      = scriptsRemove true greenhouse greenhouseSaved.flash := by
    unfold scriptsRemove
    rw [hfind]
  obtain ⟨hgone, hok⟩ := hm.remove hv
  refine ⟨greenhouseSaved_reachable, fun slot hslot => ?_, ?_, ?_, ?_, ?_⟩
  · have hlen := (hr.length_le hslot).2.2
    exact absurd hlen (by decide)
  · unfold scriptsLoad at htext ⊢
    rw [hfind]
    exact htext
  · unfold scriptsOpen
    rw [hfind, hi]
    dsimp only
    rw [hholds.bodyLen (hm.entry hlook).1.2]
    rfl
  · rw [hremove]
    exact hok.mpr (Finmap.mem_iff.mpr ⟨_, hlook⟩)
  · rw [hremove, hgone.load hv, Finmap.lookup_erase]
    rfl

end PicoBLE.Storage
