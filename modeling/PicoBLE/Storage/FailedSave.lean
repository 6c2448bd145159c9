import PicoBLE.Storage.Config
import PicoBLE.Storage.ScriptMap
import PicoBLE.System.Bindings

/-!
# Saves that fail

The three stores rewrite a sector in place. A save that is refused, or whose
erase fails, has not touched the flash. A save whose program fails has already
erased the old record, and there is no other copy of it: what is lost is that
record and nothing else.
-/

namespace PicoBLE.Storage

open NorFlash
open PicoBLE.Ota (Flash flashSectorSize eraseRange programPage)
open PicoBLE.System (BindTable bindingsSave bindingsLoad bindStorageOffset)

/-! ## The script region, whatever happens to it -/

/-- A change to the flash. -/
inductive FlashEvent where
  | save (ok : Nat → Bool) (name : List UInt8) (body : Option (List UInt8))
  | remove (ok : Bool) (name : List UInt8)
  /-- The rest of the firmware, in other sectors. -/
  | elsewhere (f : Flash)

/-- Flash contents reached from an erased script region, by any calls with any outcomes. -/
def scriptFlash : LTS Flash FlashEvent where
  init f := Blank scriptStorageOffset (scriptSlotCount * scriptSlotSize) f.image
  step f e f' :=
    match e with
    | .save ok name body => f' = (scriptsSave ok name body f).1
    | .remove ok name => f' = (scriptsRemove ok name f).1
    | .elsewhere g => f' = g ∧ ∀ i : ScriptSlot,
        read i.offset scriptSlotSize g.image = read i.offset scriptSlotSize f.image

/-- The map only depends on the slots. -/
theorem Refines.congr {f g : Image} {m : ScriptMap} (h : Refines f m)
    (hs : ∀ i : ScriptSlot, read i.offset scriptSlotSize g = read i.offset scriptSlotSize f) :
    Refines g m := by
  have hholds : ∀ {i name body}, Holds i name body g ↔ Holds i name body f := by
    intro i name body
    unfold Holds
    rw [hs i]
  refine ⟨fun i hi => ?_, fun hlook => ?_, fun hv h1 h2 =>
    h.distinct hv (hholds.mp h1) (hholds.mp h2)⟩
  · rw [slotValid_congr (hs i)] at hi
    obtain ⟨name, body, hfit, hh, hlook⟩ := h.slot i hi
    exact ⟨name, body, hfit, hholds.mpr hh, hlook⟩
  · obtain ⟨hfit, i, hh⟩ := h.entry hlook
    exact ⟨hfit, i, hholds.mpr hh⟩

/-- Only the program operation failed. -/
def EraseOnly (ok : Nat → Bool) : Prop := ok 0 = true ∧ ok 1 = false

/-- When the program operation fails, the name is gone. -/
theorem Refines.save_erases {f : Flash} {m : ScriptMap} (h : Refines f.image m) {ok : Nat → Bool}
    (hok : EraseOnly ok) {name text : List UInt8} (hfit : Fits name text) {slot : ScriptSlot}
    (hi : slotFor name f.image = some slot) :
    (scriptsSave ok name (some text) f).2 = false ∧
      Refines (scriptsSave ok name (some text) f).1.image (m.erase name) := by
  have hlen := @slotImage_length name _ hfit.2
  obtain ⟨hslot, hother⟩ := h.slotFor_some hfit.1 hi
  have hframe : SameOutside slot.offset scriptSlotSize f.image
      (rewriteSector ok slot.offset (slotImage name text) f).1.image :=
    rewriteSector_sameOutside ok f (Nat.le_of_eq hlen)
  rw [scriptsSave_slot hfit hi]
  rcases rewriteSector_cases ok slot.offset (slotImage name text) f with
    ⟨h0, -⟩ | ⟨-, -, g, he, himg⟩ | ⟨-, h1, -⟩
  · exact absurd (h0.symm.trans hok.1) Bool.false_ne_true
  · rw [he] at hframe ⊢
    refine ⟨rfl, h.erase hfit.1 hslot hother hframe ?_⟩
    rw [himg]
    exact erase_blank _ _ _
  · exact absurd (hok.2.symm.trans h1) Bool.false_ne_true

/-- **What a save can come to**: the script is in, nothing has happened, or the
program failed and the name is gone. -/
theorem Refines.save_cases {f : Flash} {m : ScriptMap} (h : Refines f.image m) (ok : Nat → Bool)
    (name : List UInt8) (body : Option (List UInt8)) :
    (∃ text, body = some text ∧ (scriptsSave ok name body f).2 = true ∧
      Refines (scriptsSave ok name body f).1.image (m.insert name text)) ∨
    scriptsSave ok name body f = (f, false) ∨
    (EraseOnly ok ∧ validName name = true ∧ (scriptsSave ok name body f).2 = false ∧
      Refines (scriptsSave ok name body f).1.image (m.erase name)) := by
  have hrefused : ∀ text, (Fits name text → slotFor name f.image = none) →
      scriptsSave ok name (some text) f = (f, false) := fun _ => scriptsSave_rejected
  cases body with
  | none =>
    refine .inr (.inl ?_)
    unfold scriptsSave
    split <;> rfl
  | some text =>
    by_cases hfit : Fits name text
    · cases hi : slotFor name f.image with
      | none => exact .inr (.inl (hrefused text fun _ => hi))
      | some slot =>
        have hlen := @slotImage_length name _ hfit.2
        rcases rewriteSector_cases ok slot.offset (slotImage name text) f with
          ⟨-, he⟩ | ⟨h0, h1, -⟩ | ⟨-, -, g, he, -⟩
        · exact .inr (.inl ((scriptsSave_slot hfit hi).trans he))
        · obtain ⟨hno, hr⟩ := h.save_erases ⟨h0, h1⟩ hfit hi
          exact .inr (.inr ⟨⟨h0, h1⟩, hfit.1, hno, hr⟩)
        · have hframe : SameOutside slot.offset scriptSlotSize f.image
              (rewriteSector ok slot.offset (slotImage name text) f).1.image :=
            rewriteSector_sameOutside ok f (Nat.le_of_eq hlen)
          have hread := @rewriteSector_read ok slot.offset (slotImage name text) f (by rw [he])
            (Nat.le_of_eq hlen)
          rw [hlen] at hread
          rw [scriptsSave_slot hfit hi]
          exact .inl ⟨text, rfl, by rw [he], h.insert hfit hi hframe hread⟩
    · exact .inr (.inl (hrefused text fun hh => absurd hh hfit))

/-- Whatever is called, the flash stands for some map. -/
theorem refines_anyStep {f f' : Flash} {e : FlashEvent} (h : ∃ m, Refines f.image m)
    (hs : scriptFlash.step f e f') : ∃ m, Refines f'.image m := by
  obtain ⟨m, hm⟩ := h
  cases e with
  | save ok name body =>
    obtain rfl : f' = (scriptsSave ok name body f).1 := hs
    rcases hm.save_cases ok name body with ⟨text, -, -, hr⟩ | he | ⟨-, -, -, hr⟩
    · exact ⟨_, hr⟩
    · rw [he]
      exact ⟨m, hm⟩
    · exact ⟨_, hr⟩
  | remove ok name =>
    obtain rfl : f' = (scriptsRemove ok name f).1 := hs
    unfold scriptsRemove
    cases hi : findByName name f.image with
    | none => exact ⟨m, hm⟩
    | some slot =>
      cases ok with
      | false => exact ⟨m, hm⟩
      | true =>
        -- the slot found is a valid one, under whatever name
        have hpred := List.find?_some hi
        rw [Bool.and_eq_true] at hpred
        obtain ⟨name', body, hfit, hholds, -⟩ := hm.slot slot hpred.1
        exact ⟨_, hm.erase hfit.1 (fun _ => ⟨body, hholds⟩) (fun j _ hj =>
          hm.distinct hfit.1 hj hholds)
          (erase_sameOutside _ (Nat.le_refl _) (Nat.le_refl _)) (erase_blank _ _ _)⟩
  | elsewhere g =>
    obtain ⟨rfl, hsame⟩ := hs
    exact ⟨m, hm.congr hsame⟩

theorem refines_anyReachable {f : Flash} (h : scriptFlash.Reachable f) : ∃ m, Refines f.image m :=
  h.inv (fun _ hblank => ⟨∅, refines_blank hblank⟩) fun _ _ _ hr _ hs => refines_anyStep hr hs

/-! ## The three stores -/

/-- A rewrite that fails leaves its sector as it was if the erase has failed, and erased if not. -/
theorem rewriteSector_failed {ok : Nat → Bool} {off : Nat} {data : List UInt8} {f : Flash}
    (h : (rewriteSector ok off data f).2 = false) :
    (ok 0 = false → (rewriteSector ok off data f).1 = f) ∧
      (ok 0 = true → EraseOnly ok ∧
        (rewriteSector ok off data f).1.image = erase off flashSectorSize f.image) := by
  rcases rewriteSector_cases ok off data f with
    ⟨h0, he⟩ | ⟨h0, h1, g, he, himg⟩ | ⟨-, -, g, he, -⟩
  · rw [he]
    exact ⟨fun _ => rfl, fun hyes => absurd (h0.symm.trans hyes) Bool.false_ne_true⟩
  · rw [he]
    exact ⟨fun hno => absurd (hno.symm.trans h0) Bool.false_ne_true, fun _ => ⟨⟨h0, h1⟩, himg⟩⟩
  · rw [he] at h
    exact absurd h.symm Bool.false_ne_true

/-- `scripts_save` rejects its arguments, or finds no slot. -/
def SaveRefused (name : List UInt8) (body : Option (List UInt8)) (f : Image) : Prop :=
  ∀ text, body = some text → Fits name text → slotFor name f = none

/-- `config_save_wifi` rejects its argument. -/
def CredsRefused (creds : Option WifiCreds) : Prop := ∀ c, creds = some c → ¬ c.Sound

theorem scriptsSave_refused {name : List UInt8} {body : Option (List UInt8)} {f : Flash}
    (h : SaveRefused name body f.image) (ok : Nat → Bool) :
    scriptsSave ok name body f = (f, false) := by
  cases body with
  | none =>
    unfold scriptsSave
    split <;> rfl
  | some text => exact scriptsSave_rejected (h text rfl)

/-- What `scripts_save` has begun comes down to its slot. -/
theorem scriptsSave_begun {name : List UInt8} {body : Option (List UInt8)} {f : Flash}
    (h : ¬ SaveRefused name body f.image) (ok : Nat → Bool) :
    ∃ text slot, body = some text ∧ Fits name text ∧ slotFor name f.image = some slot ∧
      scriptsSave ok name body f = rewriteSector ok slot.offset (slotImage name text) f := by
  unfold SaveRefused at h
  push Not at h
  obtain ⟨text, rfl, hfit, hslot⟩ := h
  obtain ⟨slot, hi⟩ := Option.ne_none_iff_exists'.mp hslot
  exact ⟨text, slot, rfl, hfit, hi, scriptsSave_slot hfit hi⟩

/-- A save of a script that fails, by its cause. -/
theorem scriptsSave_failed {f : Flash} (h : scriptFlash.Reachable f) {ok : Nat → Bool}
    {name : List UInt8} {body : Option (List UInt8)}
    (hno : (scriptsSave ok name body f).2 = false) :
    (SaveRefused name body f.image ∨ ok 0 = false → (scriptsSave ok name body f).1 = f) ∧
    (¬ SaveRefused name body f.image → ok 0 = true → EraseOnly ok ∧
      (∀ outMax, scriptsLoad name outMax (scriptsSave ok name body f).1.image = none) ∧
      ∀ other, validName other = true → other ≠ name → ∀ outMax,
        scriptsLoad other outMax (scriptsSave ok name body f).1.image
          = scriptsLoad other outMax f.image) := by
  by_cases hrefused : SaveRefused name body f.image
  · exact ⟨fun _ => by rw [scriptsSave_refused hrefused], fun hbegun => absurd hrefused hbegun⟩
  · obtain ⟨text, slot, rfl, hfit, hi, he⟩ := scriptsSave_begun hrefused ok
    obtain ⟨hsame, hlost⟩ := rewriteSector_failed (he ▸ hno)
    refine ⟨fun hwhy => ?_, fun _ herased => ?_⟩
    · rw [he]
      exact hsame (hwhy.resolve_left hrefused)
    · obtain ⟨hok, -⟩ := hlost herased
      obtain ⟨m, hm⟩ := refines_anyReachable h
      obtain ⟨-, hr⟩ := hm.save_erases hok hfit hi
      -- the map without the name is what can still be loaded
      refine ⟨hok, fun outMax => ?_, fun other hother hne outMax => ?_⟩
      · rw [hr.load hfit.1, Finmap.lookup_erase]
        rfl
      · rw [hr.load hother, hm.load hother, Finmap.lookup_erase_ne hne]

theorem bindingsSave_failed {ok : Nat → Bool} {t : BindTable} {f : Flash}
    (hno : (bindingsSave ok t f).2 = false) :
    (ok 0 = false → (bindingsSave ok t f).1 = f) ∧
    (ok 0 = true → EraseOnly ok ∧ ∀ t', bindingsLoad (bindingsSave ok t f).1.image t' = none) := by
  obtain ⟨hsame, hlost⟩ := rewriteSector_failed hno
  refine ⟨hsame, fun herased =>
    ⟨(hlost herased).1, fun t' => PicoBLE.System.bindingsLoad_blank ?_ t'⟩⟩
  rw [bindingsSave, (hlost herased).2]
  exact erase_blank _ _ _

theorem configSaveWifi_failed {ok : Nat → Bool} {creds : Option WifiCreds} {f : Flash}
    (hno : (configSaveWifi ok creds f).2 = false) :
    (CredsRefused creds ∨ ok 0 = false → (configSaveWifi ok creds f).1 = f) ∧
    (¬ CredsRefused creds → ok 0 = true →
      EraseOnly ok ∧ configLoadWifi (configSaveWifi ok creds f).1.image = none) := by
  by_cases hrefused : CredsRefused creds
  · refine ⟨fun _ => ?_, fun hbegun => absurd hrefused hbegun⟩
    cases creds with
    | none => rfl
    | some c => exact congrArg Prod.fst (if_pos (hrefused c rfl))
  · unfold CredsRefused at hrefused
    push Not at hrefused
    obtain ⟨c, rfl, hsound⟩ := hrefused
    have he : configSaveWifi ok (some c) f =
        writeRecord ok (configRecord (CString.ofBuffer c.ssid.1) (CString.ofBuffer c.psk.1)) f :=
      if_neg (not_not_intro hsound)
    rw [he] at hno ⊢
    obtain ⟨hsame, hlost⟩ := rewriteSector_failed hno
    refine ⟨fun hwhy => hsame (hwhy.resolve_left fun hno => hno c rfl hsound),
      fun _ herased => ⟨(hlost herased).1, configLoadWifi_blank ?_⟩⟩
    rw [writeRecord, (hlost herased).2]
    exact erase_blank _ _ _

/-- **A failed save loses at most its own record.** If the arguments were rejected or the erase has
failed, the flash is what it was. Otherwise the program has failed: the record that was to be
replaced is gone, and every other one reads as before. -/
theorem failed_save {f : Flash} (h : scriptFlash.Reachable f) (ok : Nat → Bool) :
    (∀ name body, (scriptsSave ok name body f).2 = false →
      (SaveRefused name body f.image ∨ ok 0 = false → (scriptsSave ok name body f).1 = f) ∧
      (¬ SaveRefused name body f.image → ok 0 = true → EraseOnly ok ∧
        (∀ outMax, scriptsLoad name outMax (scriptsSave ok name body f).1.image = none) ∧
        ∀ other, validName other = true → other ≠ name → ∀ outMax,
          scriptsLoad other outMax (scriptsSave ok name body f).1.image
            = scriptsLoad other outMax f.image)) ∧
    (∀ t, (bindingsSave ok t f).2 = false →
      (ok 0 = false → (bindingsSave ok t f).1 = f) ∧
      (ok 0 = true → EraseOnly ok ∧ ∀ t', bindingsLoad (bindingsSave ok t f).1.image t' = none)) ∧
    (∀ creds, (configSaveWifi ok creds f).2 = false →
      (CredsRefused creds ∨ ok 0 = false → (configSaveWifi ok creds f).1 = f) ∧
      (¬ CredsRefused creds → ok 0 = true →
        EraseOnly ok ∧ configLoadWifi (configSaveWifi ok creds f).1.image = none)) :=
  ⟨fun _ _ => scriptsSave_failed h, fun _ => bindingsSave_failed, fun _ => configSaveWifi_failed⟩

/-- The erase goes through, the program does not. -/
def eraseOnly : Nat → Bool := fun k => k = 0

theorem oneScript_anyReachable : scriptFlash.Reachable oneScript.flash := by
  have hstep : scriptFlash.step ⟨fun _ => 0xFF, []⟩
      (.save PicoBLE.Ota.allOk (CString.ascii "lamp") (some (CString.ascii "gpio 1")))
        oneScript.flash := rfl
  exact LTS.Reachable.tail (.init fun _ _ => rfl) hstep

/-- Overwriting the one script there is, with the program operation failing. -/
def overwrite : Flash × Bool :=
  scriptsSave eraseOnly (CString.ascii "lamp") (some (CString.ascii "gpio 0")) oneScript.flash

/-- It erases the slot and stops. -/
theorem overwrite_erases : overwrite.2 = false ∧
    Refines overwrite.1.image (oneScript.map.erase (CString.ascii "lamp")) := by
  have hfit : Fits (CString.ascii "lamp") (CString.ascii "gpio 0") := by decide
  obtain ⟨hm, hlook⟩ := oneScript_map
  obtain ⟨slot, hfind, -⟩ := hm.find_of_lookup hlook
  unfold overwrite
  exact hm.save_erases ⟨rfl, rfl⟩ hfit (by rw [slotFor, hfind])

theorem overwrite_failed :
    EraseOnly eraseOnly ∧
    (∀ outMax, scriptsLoad (CString.ascii "lamp") outMax overwrite.1.image = none) ∧
      ∀ other, validName other = true → other ≠ CString.ascii "lamp" → ∀ outMax,
        scriptsLoad other outMax overwrite.1.image =
          scriptsLoad other outMax oneScript.flash.image := by
  have hno := overwrite_erases.1
  have hbegun : ¬ SaveRefused (CString.ascii "lamp") (some (CString.ascii "gpio 0"))
      oneScript.flash.image := by
    obtain ⟨hm, hlook⟩ := oneScript_map
    obtain ⟨slot, hfind, -⟩ := hm.find_of_lookup hlook
    intro hrefused
    have hslot := hrefused _ rfl (by decide)
    rw [slotFor, hfind] at hslot
    exact absurd hslot (Option.some_ne_none slot)
  unfold overwrite at hno ⊢
  exact ((failed_save oneScript_anyReachable eraseOnly).1 (CString.ascii "lamp")
    (some (CString.ascii "gpio 0")) hno).2 hbegun rfl

/-- The old text was there, the save fails, and it is gone. -/
theorem overwrite_loses :
    scriptsLoad (CString.ascii "lamp") (some scriptBodyMax) oneScript.flash.image
      = some (CString.ascii "gpio 1") ∧
    overwrite.2 = false ∧
    scriptsLoad (CString.ascii "lamp") (some scriptBodyMax) overwrite.1.image = none := by
  obtain ⟨hm, hlook⟩ := oneScript_map
  obtain ⟨hno, hr⟩ := overwrite_erases
  have hv : validName (CString.ascii "lamp") = true := by decide
  refine ⟨?_, hno, ?_⟩
  · rw [hm.load hv, hlook]
    decide
  · rw [hr.load hv, Finmap.lookup_erase]
    rfl

end PicoBLE.Storage
