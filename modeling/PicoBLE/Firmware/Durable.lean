import PicoBLE.Firmware.Footprint
import PicoBLE.Storage.FailedSave

/-!
# What has been stored stays stored

To a user the device has three things that outlive a reset: a map of scripts,
the credentials of a network, and a list of bindings. `Durable` is these three,
`Durable.after` what an event does to them, and `Stands` how the flash stands
for them. An event that does not call a store does nothing to them, be it an
update, a rollback or a reset in the middle of either.

A save has two flash operations. If the first one fails the old record is
there, if the second one does there is none; a reset between the two is the
latter.
-/

namespace PicoBLE.Firmware

open NorFlash
open PicoBLE.Ota (Flash flashPageSize flashSectorSize otaMetadataOffset)
open PicoBLE.Cli (StoreCall)
open PicoBLE.System (Bindings Binding TableInv bound bindStorageOffset bindSlotCount bindingsSave)
open PicoBLE.Storage

/-! ## The scripts -/

/-- What a rewritten record has come to, if `old` was in its place. -/
def rewritten {α : Type} (ok : Nat → Bool) (new : α) (old : Option α) : Option α :=
  if ok 0 then (if ok 1 then some new else none) else old

/-- The map after `scripts_save`. -/
def scriptsAfterSave (ok : Nat → Bool) (name body : List UInt8) (m : ScriptMap) : ScriptMap :=
  match m.save name body with
  | none => m
  | some m' => if ok 0 then (if ok 1 then m' else m.erase name) else m

/-- The map after `scripts_remove`, which looks at the front of a name only. -/
def scriptsAfterRemove (ok : Bool) (name : List UInt8) (m : ScriptMap) : ScriptMap :=
  if ok then m.erase (name.take scriptNameMax) else m

theorem Refines.afterSave {f : Flash} {m : ScriptMap} (h : Refines f.image m) (ok : Nat → Bool)
    (name body : List UInt8) :
    Refines (scriptsSave ok name (some body) f).1.image (scriptsAfterSave ok name body m) := by
  unfold scriptsAfterSave
  by_cases hroom : Fits name body ∧ (name ∈ m ∨ m.keys.card < scriptSlotCount)
  · have hsave : m.save name body = some (m.insert name body) := if_pos hroom
    obtain ⟨hfit, -⟩ := hroom
    obtain ⟨slot, hi⟩ : ∃ slot, slotFor name f.image = some slot := by
      refine Option.ne_none_iff_exists'.mp fun hnone => ?_
      have hfull : m.save name body = none :=
        h.save_none.mpr (.inr (.inr ((h.slotFor_none hfit.1).mp hnone)))
      exact absurd (hfull.symm.trans hsave) (by simp)
    have hlen := @slotImage_length name _ hfit.2
    rw [hsave]
    dsimp only
    rcases rewriteSector_cases ok slot.offset (slotImage name body) f with
      ⟨h0, he⟩ | ⟨h0, h1, -⟩ | ⟨h0, h1, g, he, -⟩
    · rw [scriptsSave_slot hfit hi, he, h0]
      exact h
    · rw [h0, h1]
      exact (h.save_erases ⟨h0, h1⟩ hfit hi).2
    · have hread := @rewriteSector_read ok slot.offset (slotImage name body) f (by rw [he])
        (Nat.le_of_eq hlen)
      rw [hlen] at hread
      rw [scriptsSave_slot hfit hi, h0, h1]
      exact h.insert hfit hi (rewriteSector_sameOutside ok f (Nat.le_of_eq hlen)) hread
  · have hsave : m.save name body = none := if_neg hroom
    have hrefused : Fits name body → slotFor name f.image = none := by
      intro hfit
      refine (h.slotFor_none hfit.1).mpr ?_
      rcases h.save_none.mp hsave with hv | hlong | hfull
      · exact absurd (hv.symm.trans hfit.1) Bool.false_ne_true
      · exact absurd hfit.2 (Nat.not_le.mpr hlong)
      · exact hfull
    rw [hsave, scriptsSave_rejected hrefused]
    exact h

theorem Refines.afterRemove {f : Flash} {m : ScriptMap} (h : Refines f.image m) (ok : Bool)
    (name : List UInt8) :
    Refines (scriptsRemove ok name f).1.image (scriptsAfterRemove ok name m) := by
  -- the comparison sees no more of the name
  have hfront : findByName name f.image = findByName (name.take scriptNameMax) f.image := by
    unfold findByName CString.strncmpEq
    simp only [List.take_take, Nat.min_self]
  unfold scriptsRemove scriptsAfterRemove
  rw [hfront]
  cases hi : findByName (name.take scriptNameMax) f.image with
  | none =>
    have herase : m.erase (name.take scriptNameMax) = m := by
      refine Finmap.ext_lookup fun other => ?_
      by_cases hother : other = name.take scriptNameMax
      · rw [hother, Finmap.lookup_erase, h.find_none hi]
      · exact Finmap.lookup_erase_ne hother
    rw [herase, ite_self]
    exact h
  | some slot =>
    cases ok with
    | false => exact h
    | true =>
      -- what is found was saved under that name
      have hpred := List.find?_some hi
      rw [Bool.and_eq_true] at hpred
      obtain ⟨saved, body, hfit, hholds, -⟩ := h.slot slot hpred.1
      have hsaved : saved = name.take scriptNameMax := by
        have heq := hpred.2
        rw [hholds.slotName_eq hfit.1, CString.strncmpEq, decide_eq_true_eq,
          List.take_of_length_le (validName_cons hfit.1).2, List.take_take, Nat.min_self] at heq
        exact heq
      rw [if_pos rfl, ← hsaved]
      exact h.erase hfit.1 (fun _ => ⟨body, hholds⟩) (fun j _ hj => h.distinct hfit.1 hj hholds)
        (erase_sameOutside _ (Nat.le_refl _) (Nat.le_refl _)) (erase_blank _ _ _)

/-! ## What is stored -/

/-- What outlives a reset. -/
structure Durable where
  scripts : ScriptMap
  /-- The name of the network, and the password. -/
  wifi : Option (List UInt8 × List UInt8)
  bindings : Option (List Binding)

/-- The two strings. -/
def wifiStrings (c : WifiCreds) : List UInt8 × List UInt8 :=
  (CString.ofBuffer c.ssid.1, CString.ofBuffer c.psk.1)

/-- A call of the script store. -/
def Durable.afterCall (x : Durable) : StoreCall → Durable
  | .save ok name body => { x with scripts := scriptsAfterSave ok name body x.scripts }
  | .remove ok name => { x with scripts := scriptsAfterRemove ok name x.scripts }

/-- What an event of the device does to it. -/
def Durable.after (x : Durable) (d : Device) : Event → Durable
  | .shell e =>
    match d.m.storeCall e with
    | some c => x.afterCall c
    | none => x
  | .saveBindings ok => { x with bindings := rewritten ok (bound d.b.slots) x.bindings }
  | .saveWifi ok (some c) =>
    if c.Sound then { x with wifi := rewritten ok (wifiStrings c) x.wifi } else x
  | .clearWifi ok => if ok then { x with wifi := none } else x
  | _ => x

/-- The entries of the record, and the bindings that they come back as. -/
def OnRecord (f : Image) : Option (List Binding) → Prop
  | none => Bindings.storedEntries f = none
  | some bs =>
    ∃ ds, Bindings.storedEntries f = some ds ∧ System.Installable ds ∧ ds.length ≤ bindSlotCount ∧
      ds.map (fun d => d.slot.binding) = bs

/-- The flash stands for it. -/
structure Stands (f : Image) (x : Durable) : Prop where
  scripts : Refines f x.scripts
  wifi : (configLoadWifi f).map wifiStrings = x.wifi
  bindings : OnRecord f x.bindings

/-! ## Three stores -/

inductive Store where
  | scripts
  | bindings
  | wifi

/-- Where it is. -/
def Store.region : Store → Set Nat
  | .scripts =>
  {a | scriptStorageOffset ≤ a ∧ a < scriptStorageOffset + scriptSlotCount * scriptSlotSize}
  | .bindings => sectorAt bindStorageOffset
  | .wifi => sectorAt configSectorOffset

/-- The store that an event may write to. -/
def Event.store : Event → Option Store
  | .shell _ => some .scripts
  | .saveBindings _ => some .bindings
  | .saveWifi _ _ => some .wifi
  | .clearWifi _ => some .wifi
  | _ => none

/-- Two stores do not overlap. -/
theorem region_disjoint {s t : Store} {a : Nat} (hs : a ∈ s.region) (ht : a ∈ t.region) :
    s = t := by
  obtain ⟨-, hbind, hconfig, -⟩ := stores_ordered
  cases s <;> cases t <;> first
    | rfl
    | exact absurd (lt_of_lt_of_le hs.2 (le_trans (by omega) ht.1)) (lt_irrefl a)
    | exact absurd (lt_of_lt_of_le ht.2 (le_trans (by omega) hs.1)) (lt_irrefl a)

theorem footprint_store {d : Device} {e : Event} {s : Store} (hs : e.store ≠ some s) {a : Nat}
    (ha : a ∈ s.region) :
    a ∉ d.footprint e := by
  have hbehind : scriptStorageOffset ≤ a := by
    obtain ⟨-, hbind, hconfig, -⟩ := stores_ordered
    cases s
    · exact ha.1
    · exact Nat.le_trans (Nat.le_trans (Nat.le_add_right _ _) hbind) ha.1
    · exact Nat.le_trans (by omega) ha.1
  intro hin
  cases e with
  | board e => exact hin (protected_behind d.cpu hbehind)
  | shell e =>
    obtain ⟨slot, -, hslot⟩ := hin
    exact hs (congrArg some (region_disjoint (s := .scripts) (scriptSlot_sector hslot) ha))
  | saveBindings ok => exact hs (congrArg some (region_disjoint (s := .bindings) hin ha))
  | saveWifi ok creds => exact hs (congrArg some (region_disjoint (s := .wifi) hin ha))
  | clearWifi ok => exact hs (congrArg some (region_disjoint (s := .wifi) hin ha))
  | table t => exact hin
  | dispatch i => exact hin
  | loadBindings => exact hin

/-- Two images with the same bytes in a store. -/
def SameStore (s : Store) (f g : Image) : Prop := ∀ a ∈ s.region, g a = f a

section Kept

variable {f g : Image}

theorem SameStore.refines {m : ScriptMap} (h : SameStore .scripts f g) (hm : Refines f m) :
    Refines g m := by
  exact hm.congr fun slot => read_congr fun _ hi =>
    h _ (scriptSlot_sector ⟨Nat.le_add_right _ _, Nat.add_lt_add_left hi _⟩)

theorem SameStore.sector {s : Store} {off : Nat} (h : SameStore s f g)
    (hs : s.region = sectorAt off) :
    read off flashSectorSize g = read off flashSectorSize f :=
  read_congr fun _ hi => h _ (hs ▸ ⟨Nat.le_add_right _ _, Nat.add_lt_add_left hi _⟩)

theorem SameStore.wifi (h : SameStore .wifi f g) : configLoadWifi g = configLoadWifi f :=
  configLoadWifi_congr (h.sector rfl)

theorem SameStore.entries (h : SameStore .bindings f g) :
    Bindings.storedEntries g = Bindings.storedEntries f := by
  have hread : read bindStorageOffset System.diskRecordSize g =
      read bindStorageOffset System.diskRecordSize f := by
    rw [← read_take (show System.diskRecordSize ≤ flashSectorSize by decide), h.sector rfl,
      read_take (by decide)]
  unfold Bindings.storedEntries
  simp only [hread]

theorem SameStore.onRecord {bs : Option (List Binding)} (h : SameStore .bindings f g)
    (hbs : OnRecord f bs) :
    OnRecord g bs := by
  unfold OnRecord at hbs ⊢
  rw [h.entries]
  exact hbs

end Kept

/-! ## The records -/

theorem onRecord_blank {f : Image} (h : Blank bindStorageOffset flashSectorSize f) :
    OnRecord f none := by
  have hload := System.bindingsLoad_eq f fun _ => Bindings.emptySlot
  rw [System.bindingsLoad_blank h] at hload
  exact Option.map_eq_none_iff.mp hload.symm

/-- `bindings_save` puts the bindings on record. -/
theorem onRecord_save {f : Flash} {t : System.BindTable} {old : Option (List Binding)}
    (ht : TableInv t) (hold : OnRecord f.image old) (ok : Nat → Bool) :
    OnRecord (bindingsSave ok t f).1.image (rewritten ok (bound t) old) := by
  rcases rewriteSector_cases ok bindStorageOffset (System.diskRecord t).sector f with
    ⟨h0, he⟩ | ⟨h0, h1, g, he, himg⟩ | ⟨h0, h1, g, he, -⟩
  · rw [bindingsSave, he, rewritten, h0]
    exact hold
  · rw [bindingsSave, he, rewritten, h0, h1]
    refine onRecord_blank ?_
    rw [himg]
    exact erase_blank _ _ _
  · have hsave : (bindingsSave ok t f).2 = true := by rw [bindingsSave, he]
    rw [rewritten, h0, h1]
    refine ⟨_, System.storedEntries_saved hsave rfl, System.installable_usedBindings ht,
      System.usedBindings_length t, ?_⟩
    rw [System.usedBindings, List.map_map, bound]
    exact List.map_congr_left fun i hi => (System.binding_toDisk ht (List.mem_filter.mp hi).2).1

/-- What the loader makes of a record. -/
theorem OnRecord.load {f : Image} {bs : Option (List Binding)} (h : OnRecord f bs) (b : Bindings) :
    bound (b.load f).1.slots = bs.getD (bound b.slots) := by
  cases bs with
  | none => rw [Bindings.load_none h]; rfl
  | some bs =>
    obtain ⟨ds, hds, hinst, hlen, hbs⟩ := h
    rw [Bindings.load_some hds]
    exact ((System.filled_install hinst hlen b).bound hlen).1.trans hbs

/-- `config_save_wifi` puts the two strings on record. -/
theorem wifi_save {f : Flash} {c : WifiCreds} (hc : c.Sound) (ok : Nat → Bool) :
    (configLoadWifi (configSaveWifi ok (some c) f).1.image).map wifiStrings =
      rewritten ok (wifiStrings c) ((configLoadWifi f.image).map wifiStrings) := by
  obtain ⟨hssid, hpsk⟩ := hc.strings
  have hcases := rewriteSector_cases ok configSectorOffset
    (configRecord (CString.ofBuffer c.ssid.1) (CString.ofBuffer c.psk.1)).page f
  rw [← writeRecord, ← configSaveWifi_sound hc] at hcases
  rcases hcases with ⟨h0, he⟩ | ⟨h0, h1, g, he, himg⟩ | ⟨h0, h1, g, he, -⟩
  · rw [he, rewritten, h0]
    rfl
  · have hblank : configLoadWifi g.image = none := by
      refine configLoadWifi_blank ?_
      rw [himg]
      exact erase_blank _ _ _
    rw [he, rewritten, h0, h1, hblank]
    rfl
  · have hsave : (configSaveWifi ok (some c) f).2 = true := by rw [he]
    rw [configLoadWifi_saved hsave rfl, rewritten, h0, h1]
    refine congrArg some (Prod.ext ?_ ?_)
    · exact (holds_zeroPadded hssid.1 (Nat.lt_succ_of_le hc.1.2)).ofBuffer
    · exact (holds_zeroPadded hpsk.1 (Nat.lt_succ_of_le hc.2.2)).ofBuffer

/-! ## One step -/

theorem Stands.keep {f g : Image} {x : Durable} (h : Stands f x) (hsame : ∀ s, SameStore s f g) :
    Stands g x :=
  ⟨(hsame .scripts).refines h.scripts, by rw [(hsame .wifi).wifi, h.wifi],
    (hsame .bindings).onRecord h.bindings⟩

/-- **Every step does to the flash what it does to what is stored.** -/
theorem Stands.step {d d' : Device} {e : Event} {x : Durable} (hj : Joined d)
    (h : Stands d.flash.image x) (hs : Stepped d e d') : Stands d'.flash.image (x.after d e) := by
  have hkept : ∀ {s}, e.store ≠ some s → SameStore s d.flash.image d'.flash.image :=
    fun hne a ha => hj.footprint hs (footprint_store hne ha)
  cases hs with
  | board => exact h.keep fun s => hkept (by simp [Event.store])
  | table => exact h.keep fun s => hkept (by simp [Event.store])
  | visit => exact h.keep fun s => hkept (by simp [Event.store])
  | fire => exact h.keep fun s => hkept (by simp [Event.store])
  | loadBindings => exact h.keep fun s => hkept (by simp [Event.store])
  | @shell e m _ hown hm =>
    have hwifi : SameStore .wifi d.flash.image m.fw.flash.image := hkept (by simp [Event.store])
    have hbindings : SameStore .bindings d.flash.image m.fw.flash.image :=
      hkept (by simp [Event.store])
    rw [Durable.after]
    rcases shell_flash hown hm with ⟨c, hc, hflash⟩ | ⟨hnone, hflash⟩
    · rw [hc]
      have hscripts : Refines (c.run d.flash).image (x.afterCall c).scripts := by
        cases c with
        | save ok name body => exact Refines.afterSave h.scripts ok name body
        | remove ok name => exact Refines.afterRemove h.scripts ok name
      have hrest : (x.afterCall c).wifi = x.wifi ∧ (x.afterCall c).bindings = x.bindings := by
        cases c <;> exact ⟨rfl, rfl⟩
      refine ⟨?_, ?_, ?_⟩
      · show Refines m.fw.flash.image _
        rw [hflash]
        exact hscripts
      · rw [hrest.1, ← h.wifi]
        exact congrArg _ hwifi.wifi
      · rw [hrest.2]
        exact hbindings.onRecord h.bindings
    · rw [hnone]
      show Stands m.fw.flash.image x
      rw [hflash]
      exact h
  | @saveBindings ok ht =>
    obtain ⟨w, hw, hb⟩ := hj.table (d.turns_iff.mp ht).1
    have hinv := (System.eventInv_reachable hw).1
    rw [hb] at hinv
    have hwifi := (hkept (s := .wifi) (by simp [Event.store])).wifi
    exact ⟨(hkept (s := .scripts) (by simp [Event.store])).refines h.scripts,
      by rw [hwifi]; exact h.wifi, onRecord_save hinv h.bindings ok⟩
  | @saveWifi ok creds ht =>
    have hscripts := (hkept (s := .scripts) (by simp [Event.store])).refines h.scripts
    have hbindings := (hkept (s := .bindings) (by simp [Event.store])).onRecord h.bindings
    cases creds with
    | none => exact h
    | some c =>
      rw [Durable.after]
      split
      · next hc =>
        refine ⟨hscripts, ?_, hbindings⟩
        rw [← h.wifi]
        exact wifi_save hc ok
      · next hc =>
        rw [Device.withFlash_flash, configSaveWifi_refused hc]
        exact h
  | @clearWifi ok ht =>
    have hscripts := (hkept (s := .scripts) (by simp [Event.store])).refines h.scripts
    have hbindings := (hkept (s := .bindings) (by simp [Event.store])).onRecord h.bindings
    cases ok with
    | false => exact h
    | true =>
      refine ⟨hscripts, ?_, hbindings⟩
      have hblank : configLoadWifi (configClearWifi true d.flash).1.image = none :=
        configLoadWifi_blank (erase_blank _ _ _)
      exact congrArg (Option.map wifiStrings) hblank

/-! ## Every run -/

/-- The device, and what has been stored on it. -/
structure Keeper where
  d : Device
  x : Durable

/-- From a device whose flash stands for something. -/
def keepers : LTS Keeper Event where
  init k := k.d.cpu = .bootloader ∧ Stands k.d.flash.image k.x
  step k e k' := k.d.step e = some k'.d ∧ k'.x = k.x.after k.d e

theorem stands_reachable {k : Keeper} (h : keepers.Reachable k) :
    Joined k.d ∧ Stands k.d.flash.image k.x := by
  refine h.inv (P := fun k => Joined k.d ∧ Stands k.d.flash.image k.x) ?_ fun k e k' hinv _ hs => ?_
  · rintro k ⟨hcpu, hstands⟩
    exact ⟨joined_init hcpu, hstands⟩
  · have hstep := Device.step_cases hs.1
    refine ⟨hinv.1.step hstep, ?_⟩
    rw [hs.2]
    exact hinv.2.step hinv.1 hstep

/-- **What has been stored stays stored.** Whatever the device has done, with whatever outcomes,
what its readers find is what was there at first and what the saves, removals and clears have made
of it: under a valid name `scripts_load` and `scripts_open` read the map, `config_load_wifi` the two
strings, `bindings_load` the list; and so the set-up after a reset has the bindings of the last
save. -/
theorem stored_survives {k : Keeper} (h : keepers.Reachable k) :
    (∀ name, validName name = true →
      (∀ outMax, scriptsLoad name outMax k.d.flash.image =
        (k.x.scripts.lookup name).filter fun body => outMax.all fun room => body.length ≤ room) ∧
      (scriptsOpen false name k.d.flash.image).map (fun s => s.text k.d.flash.image) =
        k.x.scripts.lookup name) ∧
    (configLoadWifi k.d.flash.image).map wifiStrings = k.x.wifi ∧
    (∀ b : Bindings, bound (b.load k.d.flash.image).1.slots = k.x.bindings.getD (bound b.slots)) ∧
    ∀ ok d', k.d.step (.board (.init ok)) = some d' → bound d'.b.slots = k.x.bindings.getD [] := by
  obtain ⟨-, hstands⟩ := stands_reachable h
  refine ⟨fun name hv => ⟨hstands.scripts.load hv, hstands.scripts.open hv⟩, hstands.wifi,
    hstands.bindings.load, fun ok d' hs => ?_⟩
  have hkeeper : keepers.Reachable ⟨d', k.x⟩ := h.tail (a := .board (.init ok)) ⟨hs, rfl⟩
  have hrecord : OnRecord d'.flash.image k.x.bindings := (stands_reachable hkeeper).2.bindings
  have hafter := hrecord.load Bindings.zero
  rw [← Bindings.init_zero] at hafter
  cases Device.step_cases hs with
  | @board e b hadm hb =>
    have hflash : (k.d.afterBoard b (.init ok)).flash = b.flash := rfl
    rw [hflash] at hafter
    rw [Device.afterBoard_init]
    dsimp only
    exact hafter

/-- Events without a store, be it a whole update, leave what is stored. -/
theorem keepers_runs {d d' : Device} {es : List Event}
    (hr : devices.Runs (fun _ e => e.store = none) d es d') {x : Durable}
    (h : keepers.Reachable ⟨d, x⟩) : keepers.Reachable ⟨d', x⟩ := by
  induction hr with
  | nil => exact h
  | @cons d d₁ _ e _ hnone hs _ ih =>
    have hafter : x.after d e = x := by
      cases e with
      | shell e => exact absurd hnone (by simp [Event.store])
      | saveBindings ok => exact absurd hnone (by simp [Event.store])
      | saveWifi ok creds => exact absurd hnone (by simp [Event.store])
      | clearWifi ok => exact absurd hnone (by simp [Event.store])
      | board | table | dispatch | loadBindings => rfl
    exact ih (h.tail (a := e) ⟨hs, hafter.symm⟩)

/-- Nothing is stored on the device yet. -/
theorem appliedDevice_stands : Stands appliedDevice.flash.image ⟨∅, none, none⟩ := by
  have hblank : ∀ {off n : Nat}, scriptStorageOffset ≤ off →
      Blank off n appliedDevice.flash.image := by
    intro off n hoff i hlt
    have hfront : otaMetadataOffset ≤ scriptStorageOffset := by decide
    have ha : Ota.Slot.a.offset + Ota.bootable.1.length ≤ scriptStorageOffset := by
      rw [Ota.bootable_length]
      decide
    have hb : Ota.Slot.b.offset + Ota.bootable.1.length ≤ scriptStorageOffset := by
      rw [Ota.bootable_length]
      decide
    have hm : otaMetadataOffset + flashPageSize ≤ scriptStorageOffset := by decide
    show NorFlash.program _ _ _ _ = 0xFF
    rw [program_outside (.inr (by rw [Ota.OtaMetadata.page_length]; omega)),
      program_outside (.inr (by omega)), program_outside (.inr (by omega))]
  refine ⟨refines_blank (hblank (Nat.le_refl _)), ?_, onRecord_blank (hblank (by decide))⟩
  rw [configLoadWifi_blank (hblank (by decide))]
  rfl

/-- The only binding there is. -/
def lampBinding : Binding :=
  { pin := 2, edge := System.bindEdgeHigh, debounceMs := 5, target := CString.ascii "run lamp" }

def lampTable : Bindings :=
  Bindings.zero.turn (.add 2 System.bindEdgeHigh (CString.ascii "run lamp") 5)

/-- Once it has been saved, every load finds it. -/
theorem lampBinding_survives : ∃ k, keepers.Reachable k ∧ k.d.turns = true ∧
    ∀ b : Bindings, bound (b.load k.d.flash.image).1.slots = [lampBinding] := by
  obtain ⟨d, ota, hrun, -, hturns, htable⟩ := appliedDevice_runs
  have hquiet : devices.Runs (fun _ e => e.store = none) appliedDevice _ d :=
    hrun.mono fun _ _ ⟨_, he⟩ => he ▸ rfl
  have hup := keepers_runs hquiet (.init ⟨rfl, appliedDevice_stands⟩)
  -- nothing was bound when it came up
  have hempty : d.b = .zero := by
    rw [htable, Bindings.init_zero, Bindings.load_none (stands_reachable hup).2.bindings]
  have hadd : d.step (.table (.add 2 System.bindEdgeHigh (CString.ascii "run lamp") 5)) =
      some { d with b := lampTable } := by
    rw [lampTable, ← hempty]
    exact if_pos hturns
  obtain ⟨d', hd', hsave⟩ : ∃ d' : Device, d'.turns = true ∧
      Device.step { d with b := lampTable } (.saveBindings Ota.allOk) = some d' := by
    refine ⟨Device.withFlash { d with b := lampTable } (bindingsSave Ota.allOk lampTable.slots
      d.flash).1, hturns, ?_⟩
    exact if_pos hturns
  have hadded : keepers.Reachable ⟨{ d with b := lampTable }, ⟨∅, none, none⟩⟩ :=
    hup.tail ⟨hadd, rfl⟩
  have hsaved : keepers.Reachable ⟨d', ⟨∅, none, some (bound lampTable.slots)⟩⟩ :=
    hadded.tail ⟨hsave, rfl⟩
  have hbound : bound lampTable.slots = [lampBinding] := by decide +kernel
  exact ⟨_, hsaved, hd', fun b => ((stored_survives hsaved).2.2.1 b).trans hbound⟩

end PicoBLE.Firmware
