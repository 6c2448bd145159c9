import PicoBLE.Cli.Effects
import PicoBLE.Storage.ScriptMap

/-!
# What the shells do to the script store

Three steps call the store: `.end` saves a capture, the end of `script fetch`
saves what was fetched, and `script rm` removes. Each such call erases one slot
or none, and no other step changes a slot.
-/

namespace PicoBLE.Cli

open NorFlash
open CString (ascii)
open PicoBLE.Ota (Flash)
open PicoBLE.Storage

/-! ## Calls of the store -/

/-- A call of `scripts_save` or `scripts_remove`, with how the flash operations end. -/
inductive StoreCall where
  | save (ok : Nat → Bool) (name body : List UInt8)
  | remove (ok : Bool) (name : List UInt8)

/-- What the call does. -/
def StoreCall.run : StoreCall → Flash → Flash
  | .save ok name body, f => (scriptsSave ok name (some body) f).1
  | .remove ok name, f => (scriptsRemove ok name f).1

/-- The slot that the call erases. -/
def StoreCall.erases : StoreCall → Image → Option ScriptSlot
  | .save ok name body, f => if Fits name body ∧ ok 0 = true then slotFor name f else none
  | .remove ok name, f => if ok then findByName name f else none

/-- **A call leaves every slot alone but the one it erases.** -/
theorem StoreCall.run_frame (c : StoreCall) (f : Flash) :
    match c.erases f.image with
    | some slot => SameOutside slot.offset scriptSlotSize f.image (c.run f).image
    | none => c.run f = f := by
  cases c with
  | save ok name body =>
    unfold StoreCall.erases StoreCall.run
    dsimp only
    by_cases hfit : Fits name body
    · cases hi : slotFor name f.image with
      | none =>
        -- the store is full
        rw [ite_self]
        exact congrArg Prod.fst (scriptsSave_rejected fun _ => hi)
      | some slot =>
        rw [scriptsSave_slot hfit hi]
        have hlen := @slotImage_length name _ hfit.2
        by_cases hok : ok 0 = true
        · rw [if_pos ⟨hfit, hok⟩]
          exact rewriteSector_sameOutside ok f (Nat.le_of_eq hlen)
        · rw [if_neg fun h => hok h.2]
          -- without the erase nothing happens
          rcases rewriteSector_cases ok slot.offset (slotImage name body) f with
            ⟨-, he⟩ | ⟨h0, -⟩ | ⟨h0, -⟩
          · exact congrArg Prod.fst he
          · exact absurd h0 hok
          · exact absurd h0 hok
    · rw [if_neg fun h => hfit h.1]
      exact congrArg Prod.fst (scriptsSave_rejected fun h => absurd h hfit)
  | remove ok name =>
    unfold StoreCall.erases StoreCall.run scriptsRemove
    dsimp only
    cases ok with
    | false =>
      rw [if_neg Bool.false_ne_true]
      cases findByName name f.image <;> rfl
    | true =>
      rw [if_pos rfl]
      cases hi : findByName name f.image with
      | none => rfl
      | some slot => exact erase_sameOutside _ (Nat.le_refl _) (Nat.le_refl _)

/-! ## Who calls it -/

/-- The call of the store that the frame makes when it runs. -/
def Frame.storeCall (f : Frame) (t : Tick) (fw : Fw) : Option StoreCall :=
  match f.deed t fw with
  | .captured _ line =>
    if skipWs line = ascii ".end" then some (.save t.flashOk fw.cap.name fw.cap.text) else none
  | .removed name => some (.remove (t.flashOk 0) (fw.str name))
  | _ => none

/-- The call of the store that a step makes. -/
def Machine.storeCall (m : Machine) : Event → Option StoreCall
  | .tick t => m.stack.head?.bind fun f => f.storeCall t m.fw
  | .httpDone t ok =>
    match m.stack with
    | .fetch name :: _ =>
      if ok then some (.save t.flashOk (m.fw.str name) (m.fw.cap.fetched m.fw.fetchState.bytes))
      else none
    | _ => none
  | _ => none

/-- **What a tick does to the flash**: what its call of the store does, if it makes one. -/
theorem runFrame_flash {t : Tick} {f : Frame} {fw : Fw} {rc : Int} {r : Ran}
    (h : runFrame t f fw rc = some r) :
    r.fw.flash = ((f.storeCall t fw).map fun c => c.run fw.flash).getD fw.flash := by
  unfold Frame.storeCall
  cases runFrame_effect h with
  | quiet _ hdeed hq _ => rw [hdeed]; exact hq.flash
  | @captured sh line fw₀ _ hdeed hcap hq he _ =>
    rw [hdeed, he]
    dsimp only
    -- only `.end` saves
    rcases captureLineCb_cases t sh line fw₀ with ⟨hend, hcb⟩ | ⟨hend, hcb⟩ | ⟨hend, -, hcb⟩
    · rw [if_pos hend, hcb]
      show (scriptsSave t.flashOk fw₀.cap.name (some fw₀.cap.text) fw₀.flash).1 = _
      rw [hq.cap, hq.flash]
      rfl
    · rw [if_neg hend, hcb]
      exact hq.flash
    · rw [if_neg hend, hcb]
      exact hq.flash
  | begun _ hdeed _ he _ => rw [hdeed, he]; rfl
  | removed _ hdeed he _ => rw [hdeed, he]; rfl
  | fetching _ hdeed _ he _ => rw [hdeed, he]; rfl
  | opened _ hdeed _ _ _ he _ => rw [hdeed, he]; rfl
  | read hf _ hq _ => rw [hf]; exact hq.flash
  | closed hf _ he _ => rw [hf, he]; rfl

theorem SameScripts.refl (f : Flash) : SameScripts f f := fun _ _ _ => rfl

theorem SameScripts.read_slot {f g : Flash} (h : SameScripts f g) (slot : ScriptSlot) :
    read slot.offset scriptSlotSize g.image = read slot.offset scriptSlotSize f.image := by
  have hslot : slot.1 < 16 := slot.2
  refine (read_congr fun i hi => h _ ?_ ?_)
  · simp only [ScriptSlot.offset, scriptSlotCount, scriptSlotSize] at hi ⊢
    omega
  · simp only [ScriptSlot.offset]
    omega

/-- **What one step does to the flash**: a call of the store, or nothing. Somebody else may write to
it. -/
theorem step_store {m m' : Machine} {e : Event} (hs : m.step e = some m') :
    (∃ c, m.storeCall e = some c ∧ m'.fw.flash = c.run m.fw.flash) ∨
      m.storeCall e = none ∧ (m'.fw.flash = m.fw.flash ∨
        e = .elsewhere m'.fw.flash ∧ SameScripts m.fw.flash m'.fw.flash) := by
  cases step_cases hs with
  | @tick t f below r hstack hrun =>
    have hflash := runFrame_flash hrun
    have hcall : m.storeCall (.tick t) = f.storeCall t m.fw := by
      rw [Machine.storeCall, hstack, List.head?_cons, Option.bind_some]
    rw [hcall]
    cases hc : f.storeCall t m.fw with
    | some c =>
      rw [hc] at hflash
      exact .inl ⟨c, rfl, hflash⟩
    | none =>
      rw [hc] at hflash
      exact .inr ⟨rfl, .inl hflash⟩
  | @httpDone t ok name _ hstack _ =>
    cases ok with
    | false => exact .inr ⟨by rw [Machine.storeCall, hstack]; rfl, .inl rfl⟩
    | true =>
      refine .inl ⟨.save t.flashOk (m.fw.str name) (m.fw.cap.fetched m.fw.fetchState.bytes),
        ?_, rfl⟩
      rw [Machine.storeCall, hstack]
      rfl
  | @chunk data _ _ _ _ =>
    obtain ⟨buf, fetches, hfw⟩ := fetchChunk_fw data m.fw
    exact .inr ⟨rfl, .inl (by rw [hfw])⟩
  | @chunkBelow data _ _ _ _ _ _ =>
    obtain ⟨buf, fetches, hfw⟩ := fetchChunk_fw data m.fw
    exact .inr ⟨rfl, .inl (by rw [hfw])⟩
  | fire _ => exact .inr ⟨rfl, .inl (quiet_dispatchLine _ _ _).flash⟩
  | elsewhere h => exact .inr ⟨rfl, .inr ⟨rfl, h⟩⟩
  | linkUp => exact .inr ⟨rfl, .inl rfl⟩
  | subscribe _ => exact .inr ⟨rfl, .inl rfl⟩
  | linkDown => exact .inr ⟨rfl, .inl rfl⟩
  | rx _ => exact .inr ⟨rfl, .inl rfl⟩
  | usb _ => exact .inr ⟨rfl, .inl rfl⟩
  | usbFirst _ => exact .inr ⟨rfl, .inl rfl⟩
  | httpGet _ => exact .inr ⟨rfl, .inl rfl⟩
  | leafDone _ => exact .inr ⟨rfl, .inl rfl⟩

/-- Without a call of the store the slots stay. -/
theorem step_flash {m m' : Machine} {e : Event} (hs : m.step e = some m') :
    (∃ c, m.storeCall e = some c ∧ m'.fw.flash = c.run m.fw.flash) ∨
      m.storeCall e = none ∧ SameScripts m.fw.flash m'.fw.flash := by
  rcases step_store hs with hcall | ⟨hnone, hsame | ⟨-, hsame⟩⟩
  · exact .inl hcall
  · exact .inr ⟨hnone, by rw [hsame]; exact SameScripts.refl _⟩
  · exact .inr ⟨hnone, hsame⟩

/-- The slot that a step erases. -/
def Machine.erases (m : Machine) (e : Event) : Option ScriptSlot :=
  (m.storeCall e).bind fun c => c.erases m.fw.flash.image

/-- **A slot that a step does not erase reads as before.** -/
theorem step_slot {m m' : Machine} {e : Event} (hs : m.step e = some m') {slot : ScriptSlot}
    (h : m.erases e ≠ some slot) :
    read slot.offset scriptSlotSize m'.fw.flash.image =
      read slot.offset scriptSlotSize m.fw.flash.image := by
  rcases step_flash hs with ⟨c, hc, hflash⟩ | ⟨-, hsame⟩
  · rw [Machine.erases, hc, Option.bind_some] at h
    have hframe := c.run_frame m.fw.flash
    rw [hflash]
    split at hframe
    · next other hother => exact slot_frame hframe fun he => h (he ▸ hother)
    · rw [hframe]
  · exact hsame.read_slot slot

end PicoBLE.Cli
