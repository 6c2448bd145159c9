import PicoBLE.Lib.LTS
import PicoBLE.Ota.Staging

/-!
# Transfers

The four calls that move an image into the staging slot, in any order and with
any outcome of the flash operations under them.

While a transfer is in progress there are two byte strings to tell apart: the
bytes `ota_write` has *accepted*, which the hash and the counter know about,
and the bytes that were *staged*. `Receiving` relates the state to both. They
are the same string until a page cannot be programmed in the middle of a
chunk; from then on the staged bytes are fewer, for good.
-/

namespace PicoBLE.Ota

open NorFlash
open PicoBLE.Sha256

/-! ## A transfer in progress -/

/-- The pages the staging functions work on. -/
def App.pages (s : App) : Pages := ⟨s.flash, s.ota.page, s.ota.nextPageOff⟩

/-- Where the staging slot starts. -/
def App.base (s : App) : Nat := s.ota.status.stagingSlot.offset

/-- A transfer that has accepted `acc` and staged `xs`. -/
structure Receiving (s : App) (acc xs : List UInt8) : Prop where
  active : s.ota.status.updateInProgress = true
  notReady : s.ota.status.imageReady = false
  /-- The hash has seen what was accepted. -/
  hash : Holds s.ota.sha acc
  /-- So has the counter. -/
  count : s.ota.status.bytesWritten = acc.length
  /-- No more was accepted than was announced. -/
  within : acc.length ≤ s.ota.status.limit
  /-- And no more was announced than fits. -/
  size : s.ota.status.stagingSize ≤ otaSlotSize
  staged : Staged s.base s.pages xs
  /-- Bytes can only get lost on the way. -/
  lost : xs.length ≤ acc.length
  /-- If none did, the strings are the same. -/
  same : xs.length = acc.length → xs = acc

theorem OtaStatus.limit_le {st : OtaStatus} (h : st.stagingSize ≤ otaSlotSize) :
    st.limit ≤ otaSlotSize := by
  unfold OtaStatus.limit
  split
  · exact h
  · exact Nat.le_refl _

theorem Receiving.fits {s : App} {acc xs : List UInt8} (h : Receiving s acc xs) :
    acc.length ≤ otaSlotSize :=
  Nat.le_trans h.within (OtaStatus.limit_le h.size)

/-- `ota_begin` starts a transfer of nothing. -/
theorem receiving_begun {ok : Nat → Bool} {n : Nat} {s : App} {f : Flash} (hn : n ≤ otaSlotSize)
    (he : eraseSectors ok s.ota.status.stagingSlot.offset otaSlotSectors 0 s.flash = (f, true)) :
    Receiving (s.begun n f) [] [] where
  active := rfl
  notReady := rfl
  hash := sha256Init_holds
  count := rfl
  within := Nat.zero_le _
  size := hn
  staged := by
    have hb := eraseSectors_blank (congrArg Prod.snd he)
    rw [he, Nat.zero_mul, otaSlotSectors_mul] at hb
    exact
      { length := rfl, bytes := rfl, aligned := Nat.dvd_zero _, blank := hb, fits := Nat.zero_le _ }
  lost := Nat.le_refl _
  same := fun _ => rfl

/-- The sum in the check does not wrap. -/
theorem Receiving.accepts_limit {s : App} {acc xs data : List UInt8} {offset : Nat}
    (h : Receiving s acc xs) (hacc : s.ota.status.Accepts offset data)
    (hlen : data.length < 2 ^ 31) : acc.length + data.length ≤ s.ota.status.limit := by
  obtain ⟨-, -, rfl, hlim⟩ := hacc
  have hS : otaSlotSize = 786432 := rfl
  have hfits := h.fits
  have hcount := h.count
  rwa [Nat.mod_eq_of_lt (by omega), hcount] at hlim

/-- An accepted chunk fits. -/
theorem Receiving.accepts_fits {s : App} {acc xs data : List UInt8} {offset : Nat}
    (h : Receiving s acc xs) (hacc : s.ota.status.Accepts offset data)
    (hlen : data.length < 2 ^ 31) : acc.length + data.length ≤ otaSlotSize :=
  Nat.le_trans (h.accepts_limit hacc hlen) (OtaStatus.limit_le h.size)

/-- An accepted chunk: the whole of it counts, a front part of it is staged. -/
theorem Receiving.wrote {s : App} {acc xs data : List UInt8} {offset : Nat} (h : Receiving s acc xs)
    (hacc : s.ota.status.Accepts offset data) (hlen : data.length < 2 ^ 31) (ok : Nat → Bool) :
    ∃ done, done <+: data ∧ ((s.wrote ok data).2 = .ok → done = data) ∧
      Receiving (s.wrote ok data).1 (acc ++ data) (xs ++ done) := by
  have hS : otaSlotSize = 786432 := rfl
  have hcount := h.count
  have hfits := h.accepts_fits hacc hlen
  have hlost := h.lost
  obtain ⟨done, hw⟩ := writePages_front ok 0 data h.staged (by omega)
  have hdone := hw.front.length_le
  refine ⟨done, hw.front, hw.all, ?_⟩
  exact {
    active := h.active
    notReady := h.notReady
    hash := sha256Update_holds h.hash data
    count := by
      show (s.ota.status.bytesWritten + data.length) % 2 ^ 32 = _
      rw [Nat.mod_eq_of_lt (by omega), hcount, List.length_append]
    within := by rw [List.length_append]; exact h.accepts_limit hacc hlen
    size := h.size
    staged := hw.staged
    lost := by rw [List.length_append, List.length_append]; omega
    same := by
      intro heq
      rw [List.length_append, List.length_append] at heq
      rw [h.same (by omega), hw.front.eq_of_length (by omega)] }

/-! ## The end of a transfer -/

/-- A flush that fails leaves `ota_finalize` where it was. -/
theorem otaFinalize_io {ok : Nat → Bool} {s : App} (h : s.ota.status.updateInProgress = true)
    {p : Pages} (hf : flushPage (ok 0) s.base s.pages = (p, false)) :
    otaFinalize ok s = (s, .errIo) := by
  obtain rfl := flushPage_fail hf
  unfold otaFinalize
  dsimp only
  rw [if_neg (not_not.mpr h)]
  rw [App.base, App.pages] at hf
  rw [hf]

/-- **What `ota_finalize` can do** during a transfer: fail and change nothing, or
put what was staged into the slot and the hash of what was accepted into the status. -/
theorem Receiving.finalize {s : App} {acc xs : List UInt8} (h : Receiving s acc xs)
    (ok : Nat → Bool) :
    otaFinalize ok s = (s, .errIo) ∨
    ∃ p, otaFinalize ok s = (s.finalized p, .ok) ∧ SlotHolds s.base xs p.flash.image
      ∧ (sha256Final s.ota.sha).2.1 = Fips180.sha256 acc := by
  have hS : otaSlotSize = 786432 := rfl
  have hfits := h.fits
  rcases hf : flushPage (ok 0) s.base s.pages with ⟨p, _ | _⟩
  · exact .inl (otaFinalize_io h.active hf)
  · exact .inr ⟨p, otaFinalize_ok h.active hf, flushPage_ok h.staged hf,
      sha256Final_eq h.hash (by omega)⟩

/-- Without a failing program it does the latter. -/
theorem Receiving.finalize_ok {s : App} {acc xs : List UInt8} (h : Receiving s acc xs)
    (ok : Nat → Bool) (hok : ok 0 = true) :
    ∃ p, otaFinalize ok s = (s.finalized p, .ok) ∧ SlotHolds s.base xs p.flash.image
      ∧ (sha256Final s.ota.sha).2.1 = Fips180.sha256 acc := by
  have hS : otaSlotSize = 786432 := rfl
  have hfits := h.fits
  rcases hf : flushPage (ok 0) s.base s.pages with ⟨p, _ | _⟩
  · have htrue := flushPage_true s.base s.pages
    rw [hok] at hf
    rw [hf] at htrue
    exact absurd htrue Bool.false_ne_true
  · exact ⟨p, otaFinalize_ok h.active hf, flushPage_ok h.staged hf,
      sha256Final_eq h.hash (by omega)⟩

/-! ## Calls -/

/-- The bytes of a C object: no object is larger than `PTRDIFF_MAX`. -/
abbrev Chunk := { bs : List UInt8 // bs.length < 2 ^ 31 }

/-- A call, with the outcome of each flash operation it gets to. -/
inductive Call where
  | begin (imageSize : Nat) (ok : Nat → Bool)
  | write (offset : Nat) (data : Option Chunk) (ok : Nat → Bool)
  | finalize (ok : Nat → Bool)
  | abort

def Call.run : Call → App → App × OtaResult
  | .begin imageSize ok => otaBegin ok imageSize
  | .write offset data ok => otaWrite ok offset (data.map Subtype.val)
  | .finalize ok => otaFinalize ok
  | .abort => otaAbort

/-- The state after a sequence of calls. -/
def runCalls (calls : List Call) (s : App) : App :=
  calls.foldl (fun s c => (c.run s).1) s

/-- Every flash operation succeeds. -/
def allOk : Nat → Bool := fun _ => true

/-- The application after `ota_init`, then any of the calls. -/
def transfers : LTS App Call where
  init s := ∃ slot ok s₀, s = otaInit slot ok s₀
  step s c s' := s' = (c.run s).1

/-- An application in slot A that has come up on an erased flash. -/
def freshStart : App := otaInit .a allOk ⟨⟨fun _ => 0xFF, []⟩, OtaState.zero⟩

theorem freshStart_reachable {ok : App → Call → Prop} : transfers.ReachableWhen ok freshStart :=
  .init ⟨_, _, _, rfl⟩

theorem transfers_runCalls (calls : List Call) {s : App} (h : transfers.Reachable s) :
    transfers.Reachable (runCalls calls s) := by
  induction calls generalizing s with
  | nil => exact h
  | cons c calls ih => exact ih (h.tail rfl)

theorem otaInit_idle (slot : Slot) (ok : Nat → Bool) (s : App) :
    (otaInit slot ok s).ota.status.updateInProgress = false
      ∧ (otaInit slot ok s).ota.status.imageReady = false := by
  unfold otaInit
  dsimp only
  split <;> exact ⟨rfl, rfl⟩

theorem otaAbort_idle (s : App) (h : s.ota.status.updateInProgress = true) :
    (otaAbort s).1.ota.status.updateInProgress = false
      ∧ (otaAbort s).1.ota.status.imageReady = false := by
  unfold otaAbort
  rw [if_neg (not_not.mpr h)]
  exact ⟨rfl, rfl⟩

theorem otaAbort_nothing {s : App} (h : s.ota.status.updateInProgress = false) :
    otaAbort s = (s, .ok) := by
  unfold otaAbort
  rw [h, if_pos Bool.false_ne_true]

/-! ## What every call maintains -/

/-- A transfer in progress has a history. -/
def Tracked (s : App) : Prop :=
  s.ota.status.updateInProgress = true → ∃ acc xs, Receiving s acc xs

theorem tracked_idle {s : App} (h : s.ota.status.updateInProgress = false) : Tracked s :=
  fun hp => absurd (h.symm.trans hp) Bool.false_ne_true

/-- A transfer does not mind what happens to the flash outside its slot, or to
the part of the status that is not its own. -/
theorem Receiving.update {s : App} {acc xs : List UInt8} (h : Receiving s acc xs) {f : Flash}
    {pending : Bool} {attempts : UInt8}
    (hf : ∀ i, i < otaSlotSize → f.image (s.base + i) = s.flash.image (s.base + i)) :
    Receiving { flash := f, ota := { s.ota with status := { s.ota.status with
      pendingVerify := pending, bootAttempts := attempts } } } acc xs where
  active := h.active
  notReady := h.notReady
  hash := h.hash
  count := h.count
  within := h.within
  size := h.size
  staged := h.staged.congr hf
  lost := h.lost
  same := h.same

theorem Tracked.update {s : App} (h : Tracked s) {f : Flash} {pending : Bool} {attempts : UInt8}
    (hf : ∀ i, i < otaSlotSize → f.image (s.base + i) = s.flash.image (s.base + i)) :
    Tracked { flash := f, ota := { s.ota with status := { s.ota.status with
      pendingVerify := pending, bootAttempts := attempts } } } := by
  intro hp
  obtain ⟨acc, xs, hrec⟩ := h hp
  exact ⟨acc, xs, hrec.update hf⟩

/-- A ready image is not being transferred. -/
theorem Tracked.idle {s : App} (h : Tracked s) (hr : s.ota.status.imageReady = true) :
    s.ota.status.updateInProgress = false := by
  cases hp : s.ota.status.updateInProgress with
  | false => rfl
  | true =>
    obtain ⟨acc, xs, hrec⟩ := h hp
    exact absurd (hrec.notReady.symm.trans hr) Bool.false_ne_true

theorem tracked_step {s : App} (h : Tracked s) (c : Call) : Tracked (c.run s).1 := by
  cases c with
  | begin n ok =>
    show Tracked (otaBegin ok n s).1
    rcases otaBegin_cases ok n s with ⟨r, -, he, -⟩ | ⟨hp, -, f, -, he⟩ | ⟨-, hn, f, hf, he⟩
    · rw [he]; exact h
    · rw [he]; exact tracked_idle hp
    · rw [he]; exact fun _ => ⟨[], [], receiving_begun hn hf⟩
  | write offset data ok =>
    show Tracked (otaWrite ok offset (data.map Subtype.val) s).1
    cases data with
    | none =>
      obtain ⟨r, -, he⟩ := otaWrite_none ok offset s
      rw [Option.map_none, he]; exact h
    | some d =>
      rw [Option.map_some]
      by_cases hacc : s.ota.status.Accepts offset d.1
      · obtain ⟨acc, xs, hrec⟩ := h hacc.1
        obtain ⟨done, -, -, hrec'⟩ := hrec.wrote hacc d.2 ok
        rw [otaWrite_accepted hacc]; exact fun _ => ⟨_, _, hrec'⟩
      · obtain ⟨r, -, he⟩ := otaWrite_rejected hacc ok
        rw [he]; exact h
  | finalize ok =>
    show Tracked (otaFinalize ok s).1
    cases hp : s.ota.status.updateInProgress with
    | false => rw [otaFinalize_idle hp]; exact h
    | true =>
      obtain ⟨acc, xs, hrec⟩ := h hp
      rcases hrec.finalize ok with he | ⟨p, he, -⟩
      · rw [he]; exact h
      · rw [he]; exact tracked_idle rfl
  | abort =>
    show Tracked (otaAbort s).1
    cases hp : s.ota.status.updateInProgress with
    | false => rw [otaAbort_nothing hp]; exact h
    | true => exact tracked_idle (otaAbort_idle s hp).1

/-- No call leaves the staging slot. -/
theorem run_sameOutside {s : App} (h : Tracked s) (c : Call) :
    SameOutside s.base otaSlotSize s.flash.image (c.run s).1.flash.image := by
  cases c with
  | begin n ok =>
    show SameOutside _ _ _ (otaBegin ok n s).1.flash.image
    have hframe := eraseSectors_sameOutside ok s.base otaSlotSectors 0 s.flash
    rw [Nat.zero_mul, otaSlotSectors_mul] at hframe
    rcases otaBegin_cases ok n s with ⟨r, -, he, -⟩ | ⟨-, -, f, hf, he⟩ | ⟨-, -, f, hf, he⟩
    · rw [he]; exact SameOutside.refl _ _ _
    · rw [he]; rw [App.base, hf] at hframe; exact hframe
    · rw [he]; rw [App.base, hf] at hframe; exact hframe
  | write offset data ok =>
    show SameOutside _ _ _ (otaWrite ok offset (data.map Subtype.val) s).1.flash.image
    cases data with
    | none =>
      obtain ⟨r, -, he⟩ := otaWrite_none ok offset s
      rw [Option.map_none, he]; exact SameOutside.refl _ _ _
    | some d =>
      rw [Option.map_some]
      by_cases hacc : s.ota.status.Accepts offset d.1
      · obtain ⟨acc, xs, hrec⟩ := h hacc.1
        rw [otaWrite_accepted hacc]
        have hfit := hrec.accepts_fits hacc d.2
        obtain ⟨done, hw⟩ := writePages_front ok 0 d.1 hrec.staged
          (Nat.le_trans (Nat.add_le_add_right hrec.lost _) hfit)
        exact hw.outside
      · obtain ⟨r, -, he⟩ := otaWrite_rejected hacc ok
        rw [he]; exact SameOutside.refl _ _ _
  | finalize ok =>
    show SameOutside _ _ _ (otaFinalize ok s).1.flash.image
    cases hp : s.ota.status.updateInProgress with
    | false => rw [otaFinalize_idle hp]; exact SameOutside.refl _ _ _
    | true =>
      obtain ⟨acc, xs, hrec⟩ := h hp
      have hframe := flushPage_sameOutside (ok 0) hrec.staged
      rcases hf : flushPage (ok 0) s.base s.pages with ⟨p, _ | _⟩
      · rw [otaFinalize_io hp hf]; exact SameOutside.refl _ _ _
      · rw [otaFinalize_ok hp hf]; rw [hf] at hframe; exact hframe
  | abort =>
    show SameOutside _ _ _ (otaAbort s).1.flash.image
    cases hp : s.ota.status.updateInProgress with
    | false => rw [otaAbort_nothing hp]; exact SameOutside.refl _ _ _
    | true => unfold otaAbort; rw [if_neg (not_not.mpr hp)]; exact SameOutside.refl _ _ _

/-- The part of the status that a transfer does not concern. -/
def OtaStatus.identity (st : OtaStatus) : Slot × Slot × Bool × UInt8 :=
  (st.activeSlot, st.stagingSlot, st.pendingVerify, st.bootAttempts)

theorem run_identity (c : Call) (s : App) :
    (c.run s).1.ota.status.identity = s.ota.status.identity := by
  cases c with
  | begin n ok =>
    show (otaBegin ok n s).1.ota.status.identity = _
    rcases otaBegin_cases ok n s with ⟨r, -, he, -⟩ | ⟨-, -, f, -, he⟩ | ⟨-, -, f, -, he⟩
    · rw [he]
    · rw [he]
    · rw [he]; rfl
  | write offset data ok =>
    show (otaWrite ok offset (data.map Subtype.val) s).1.ota.status.identity = _
    cases data with
    | none =>
      obtain ⟨r, -, he⟩ := otaWrite_none ok offset s
      rw [Option.map_none, he]
    | some d =>
      rw [Option.map_some]
      by_cases hacc : s.ota.status.Accepts offset d.1
      · rw [otaWrite_accepted hacc]; rfl
      · obtain ⟨r, -, he⟩ := otaWrite_rejected hacc ok
        rw [he]
  | finalize ok =>
    show (otaFinalize ok s).1.ota.status.identity = _
    cases hp : s.ota.status.updateInProgress with
    | false => rw [otaFinalize_idle hp]
    | true =>
      rcases hf : flushPage (ok 0) s.base s.pages with ⟨p, _ | _⟩
      · rw [otaFinalize_io hp hf]
      · rw [otaFinalize_ok hp hf]; rfl
  | abort =>
    show (otaAbort s).1.ota.status.identity = _
    cases hp : s.ota.status.updateInProgress with
    | false => rw [otaAbort_nothing hp]
    | true => unfold otaAbort; rw [if_neg (not_not.mpr hp)]; rfl

theorem run_stagingSlot (c : Call) (s : App) :
    (c.run s).1.ota.status.stagingSlot = s.ota.status.stagingSlot :=
  congrArg (fun p => p.2.1) (run_identity c s)

theorem run_pendingVerify (c : Call) (s : App) :
    (c.run s).1.ota.status.pendingVerify = s.ota.status.pendingVerify :=
  congrArg (fun p => p.2.2.1) (run_identity c s)

/-- Without a transfer in progress only `ota_begin` does anything, once it erases. -/
theorem run_quiet {c : Call} {s : App} (h : s.ota.status.updateInProgress = false)
    (hb : ∀ n ok, c = .begin n ok → n ≤ otaSlotSize → ok 0 = false) : (c.run s).1 = s := by
  cases c with
  | begin n ok =>
    show (otaBegin ok n s).1 = s
    have hstop :
        n ≤ otaSlotSize → eraseSectors ok s.ota.status.stagingSlot.offset otaSlotSectors 0 s.flash
        = (s.flash, false) :=
      fun hn => eraseSectors_fail (hb n ok rfl hn) _ (otaSlotSectors - 1) _
    rcases otaBegin_cases ok n s with ⟨r, -, he, -⟩ | ⟨-, hn, f, hf, he⟩ | ⟨-, hn, f, hf, he⟩
    · rw [he]
    · obtain rfl : s.flash = f := congrArg Prod.fst ((hstop hn).symm.trans hf)
      rw [he]
    · exact absurd (congrArg Prod.snd ((hstop hn).symm.trans hf)) Bool.false_ne_true
  | write offset data ok =>
    show (otaWrite ok offset (data.map Subtype.val) s).1 = s
    cases data with
    | none =>
      obtain ⟨r, -, he⟩ := otaWrite_none ok offset s
      rw [Option.map_none, he]
    | some d =>
      have hno : ¬ s.ota.status.Accepts offset d.1 :=
        fun hacc => absurd (h.symm.trans hacc.1) Bool.false_ne_true
      obtain ⟨r, -, he⟩ := otaWrite_rejected hno ok
      rw [Option.map_some, he]
  | finalize ok =>
    show (otaFinalize ok s).1 = s
    rw [otaFinalize_idle h]
  | abort =>
    show (otaAbort s).1 = s
    rw [otaAbort_nothing h]

/-- Nor does any sequence of calls leave the staging slot or change the rest of the status. -/
theorem runCalls_frame {s : App} (h : Tracked s) (calls : List Call) :
    SameOutside s.base otaSlotSize s.flash.image (runCalls calls s).flash.image
      ∧ (runCalls calls s).ota.status.identity = s.ota.status.identity := by
  induction calls generalizing s with
  | nil => exact ⟨SameOutside.refl _ _ _, rfl⟩
  | cons c calls ih =>
    obtain ⟨hout, hid⟩ := ih (tracked_step h c)
    have hbase : (c.run s).1.base = s.base := congrArg Slot.offset (run_stagingSlot c s)
    rw [hbase] at hout
    exact ⟨(run_sameOutside h c).trans hout, hid.trans (run_identity c s)⟩

end PicoBLE.Ota
