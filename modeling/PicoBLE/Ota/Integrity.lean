import PicoBLE.Ota.Streaming

/-!
# A staged image and its digest

Once `image_ready` is set, `ota_apply` hands the slot to the bootloader under
the digest `ota_finalize` computed. Two failures of the flash break the tie
between the two, and only these two:

* an `ota_begin` whose erases fail leaves the image it was going to replace
  marked ready, whole or with its first sectors gone;
* an `ota_write` that fails in the middle of a chunk forgets the rest of it,
  after the hash and the counter have taken the whole.
-/

namespace PicoBLE.Ota

open NorFlash
open PicoBLE.Sha256

/-- The first `bytes_written` bytes of the staging slot hash to `computed_sha256`. -/
def DigestOfImage (s : App) : Prop :=
  Fips180.sha256 (read s.base s.ota.status.bytesWritten s.flash.image)
    = s.ota.status.computedSha256.1

/-- A call takes neither of the two ways out. -/
def Call.Intact (s : App) : Call → Prop
  | .begin n ok =>
    s.ota.status.imageReady = true → n ≤ otaSlotSize → ∀ k < otaSlotSectors, ok k = true
  | .finalize ok =>
    s.ota.status.updateInProgress = true → (s.ota.page.bytes ≠ [] → ok 0 = true) →
      s.ota.status.bytesWritten = s.ota.nextPageOff + s.ota.page.bytes.length
  | .write _ _ _ => True
  | .abort => True

/-- What such calls maintain. -/
structure Sound (s : App) : Prop where
  tracked : Tracked s
  /-- A finished one has a digest. -/
  digest : s.ota.status.imageReady = true → DigestOfImage s

theorem sound_idle {s : App} (h : s.ota.status.updateInProgress = false
    ∧ s.ota.status.imageReady = false) : Sound s where
  tracked := tracked_idle h.1
  digest hr := absurd (h.2.symm.trans hr) Bool.false_ne_true

theorem sound_receiving {s : App} {acc xs : List UInt8} (h : Receiving s acc xs) : Sound s where
  tracked _ := ⟨acc, xs, h⟩
  digest hr := absurd (h.notReady.symm.trans hr) Bool.false_ne_true

/-! ## One call -/

/-- A ready image is not being written. -/
theorem Sound.idle {s : App} (h : Sound s) (hr : s.ota.status.imageReady = true) :
    s.ota.status.updateInProgress = false := by
  cases hp : s.ota.status.updateInProgress with
  | false => rfl
  | true =>
    obtain ⟨_, _, hrec⟩ := h.tracked hp
    exact absurd (hrec.notReady.symm.trans hr) Bool.false_ne_true

/-- A begin leaves an image that is not ready as it is, or starts its own. -/
theorem otaBegin_notReady {s : App} (ok : Nat → Bool) (n : Nat)
    (hr : s.ota.status.imageReady = false) :
    (otaBegin ok n s).1.ota.status.imageReady = false := by
  rcases otaBegin_cases ok n s with ⟨r, -, he, -⟩ | ⟨-, -, f, -, he⟩ | ⟨-, -, f, -, he⟩
  · rw [he]; exact hr
  · rw [he]; exact hr
  · rw [he]; rfl

/-- **A begin stays off the first way out exactly when its failing does not leave
a ready image behind.** -/
theorem begin_intact {s : App} (h : Sound s) (n : Nat) (ok : Nat → Bool) :
    (Call.begin n ok).Intact s ↔ ((otaBegin ok n s).2 = .errIo →
      (otaBegin ok n s).1.ota.status.imageReady = false) := by
  cases hr : s.ota.status.imageReady with
  | false =>
    exact ⟨fun _ _ => otaBegin_notReady ok n hr,
      fun _ hr' => absurd (hr.symm.trans hr') Bool.false_ne_true⟩
  | true =>
    have hidle := h.idle hr
    by_cases hn : n ≤ otaSlotSize
    · have hall := eraseSectors_ok ok s.ota.status.stagingSlot.offset otaSlotSectors 0 s.flash
      rcases he : eraseSectors ok s.ota.status.stagingSlot.offset otaSlotSectors 0 s.flash
        with ⟨f, _ | _⟩
      · -- the loop failed: the image is marked as it was
        rw [he] at hall
        rw [otaBegin_io hidle hn he]
        refine ⟨fun hi => ?_, fun hno => absurd (hno rfl) (by simp [hr])⟩
        exact absurd (hall.mpr fun k _ hk => hi hr hn k (by omega)) Bool.false_ne_true
      · rw [he] at hall
        rw [otaBegin_ok hidle hn he]
        exact ⟨fun _ hio => absurd hio (by simp),
          fun _ _ _ k hk => hall.mp rfl k (Nat.zero_le _) (by omega)⟩
    · rw [otaBegin_size hidle (Nat.lt_of_not_le hn)]
      exact ⟨fun _ hio => absurd hio (by simp), fun _ _ hn' => absurd hn' hn⟩

theorem sound_begin {ok : Nat → Bool} {n : Nat} {s : App} (h : Sound s)
    (hc : (Call.begin n ok).Intact s) : Sound (otaBegin ok n s).1 := by
  have hready := (begin_intact h n ok).mp hc
  rcases otaBegin_cases ok n s with ⟨r, -, he, -⟩ | ⟨hp, -, f, -, he⟩ | ⟨-, hn, f, hf, he⟩
  · rw [he]; exact h
  · rw [he] at hready ⊢
    exact sound_idle ⟨hp, hready rfl⟩
  · rw [he]; exact sound_receiving (receiving_begun hn hf)

theorem sound_write {ok : Nat → Bool} {offset : Nat} {data : Option Chunk} {s : App} (h : Sound s) :
    Sound (otaWrite ok offset (data.map Subtype.val) s).1 := by
  cases data with
  | none =>
    obtain ⟨r, -, he⟩ := otaWrite_none ok offset s
    rw [Option.map_none, he]
    exact h
  | some c =>
    rw [Option.map_some]
    by_cases hacc : s.ota.status.Accepts offset c.1
    · obtain ⟨acc, xs, hrec⟩ := h.tracked hacc.1
      obtain ⟨done, -, -, hrec'⟩ := hrec.wrote hacc c.2 ok
      rw [otaWrite_accepted hacc]
      exact sound_receiving hrec'
    · obtain ⟨r, -, he⟩ := otaWrite_rejected hacc ok
      rw [he]
      exact h

/-- When no accepted byte is missing, the slot holds what the hash has seen. -/
theorem digestOfImage_finalized {s : App} {acc xs : List UInt8} {p : Pages} (h : Receiving s acc xs)
    (hall : s.ota.status.bytesWritten = s.ota.nextPageOff + s.ota.page.bytes.length)
    (hslot : SlotHolds s.base xs p.flash.image)
    (hsha : (sha256Final s.ota.sha).2.1 = Fips180.sha256 acc) : DigestOfImage (s.finalized p) := by
  have hlen : xs.length = acc.length := by
    rw [h.staged.length, ← h.count, hall]
    rfl
  obtain rfl := h.same hlen
  show Fips180.sha256 (read s.base s.ota.status.bytesWritten p.flash.image) = _
  rw [h.count, hslot.read h.fits]
  exact hsha.symm

theorem sound_finalize {ok : Nat → Bool} {s : App} (h : Sound s)
    (hc : (Call.finalize ok).Intact s) : Sound (otaFinalize ok s).1 := by
  cases hp : s.ota.status.updateInProgress with
  | false => rw [otaFinalize_idle hp]; exact h
  | true =>
    obtain ⟨acc, xs, hrec⟩ := h.tracked hp
    by_cases hflush : s.ota.page.bytes ≠ [] → ok 0 = true
    · rcases hrec.finalize ok with he | ⟨p, he, hslot, hsha⟩
      · rw [he]; exact h
      · rw [he]
        exact ⟨tracked_idle rfl, fun _ => digestOfImage_finalized hrec (hc hp hflush) hslot hsha⟩
    · -- the flush fails
      obtain ⟨hne, hok⟩ := Classical.not_imp.mp hflush
      have hf : flushPage (ok 0) s.base s.pages = (s.pages, false) := by
        rw [Bool.eq_false_of_not_eq_true hok]; exact flushPage_false hne
      rw [otaFinalize_io hp hf]
      exact h

theorem sound_abort {s : App} (h : Sound s) : Sound (otaAbort s).1 := by
  cases hp : s.ota.status.updateInProgress with
  | false => rw [otaAbort_nothing hp]; exact h
  | true => exact sound_idle (otaAbort_idle s hp)

theorem sound_step {s : App} {c : Call} (h : Sound s) (hc : c.Intact s) : Sound (c.run s).1 := by
  cases c with
  | begin n ok => exact sound_begin h hc
  | write offset data ok => exact sound_write h
  | finalize ok => exact sound_finalize h hc
  | abort => exact sound_abort h

/-! ## Every run -/

theorem sound_reachable {s : App} (h : transfers.ReachableWhen Call.Intact s) : Sound s := by
  refine h.inv ?_ ?_
  · rintro _ ⟨slot, ok, s₀, rfl⟩
    exact sound_idle (otaInit_idle slot ok s₀)
  · rintro s c _ hs hc rfl
    exact sound_step hs hc

/-- **A ready image is the image of its digest**, as long as no call loses bytes
of a chunk or fails to erase a ready image; and of a begin this asks no more
than that its failing should not leave an image marked ready. -/
theorem ready_digestOfImage {s : App} (h : transfers.ReachableWhen Call.Intact s) :
    (s.ota.status.imageReady = true → DigestOfImage s) ∧
    ∀ n ok, (Call.begin n ok).Intact s ↔ ((otaBegin ok n s).2 = .errIo →
      (otaBegin ok n s).1.ota.status.imageReady = false) :=
  ⟨(sound_reachable h).digest, begin_intact (sound_reachable h)⟩

/-- One byte is streamed and finalized. -/
def stageOne : List Call :=
  [.begin 0 allOk, .write 0 (some ⟨[0], by decide⟩) allOk, .finalize allOk]

theorem stageOne_ready : ∃ s, runCalls stageOne freshStart = s ∧
    transfers.ReachableWhen Call.Intact s ∧ s.ota.status.imageReady = true ∧
    s.ota.status.updateInProgress = false ∧ s.ota.status.bytesWritten = 1 ∧
    s.ota.status.computedSha256.1 = Fips180.sha256 [0] := by
  have hidle : freshStart.ota.status.updateInProgress = false ∧
      freshStart.ota.status.imageReady = false :=
    otaInit_idle _ _ _
  obtain ⟨f, p, hb, hw, hfin, hrec, hsha, -⟩ :=
    stageCalls_steps hidle.1 ⟨[0], by decide⟩ (by simp) (by decide)
  -- the three calls, one after the other
  have h1 : transfers.ReachableWhen Call.Intact (freshStart.begun 0 f) :=
    freshStart_reachable.tail (a := .begin 0 allOk)
      (fun hr => absurd (hidle.2.symm.trans hr) Bool.false_ne_true) hb.symm
  have h2 : transfers.ReachableWhen Call.Intact ((freshStart.begun 0 f).wrote allOk [0]).1 :=
    h1.tail (a := .write 0 (some ⟨[0], by decide⟩) allOk) trivial hw.symm
  have h3 : transfers.ReachableWhen Call.Intact
      (((freshStart.begun 0 f).wrote allOk [0]).1.finalized p) :=
    h2.tail (a := .finalize allOk) (fun _ _ => hrec.count.trans hrec.staged.length) hfin.symm
  refine ⟨_, ?_, h3, rfl, rfl, hrec.count, hsha⟩
  show (otaFinalize allOk (otaWrite allOk 0 (some [0]) (otaBegin allOk 0 freshStart).1).1).1 = _
  rw [hb, hw, hfin]

/-- The image of the byte is ready under its digest; a begin of which every erase
fails leaves nothing ready on the fresh board. -/
theorem stageOne_digestOfImage :
    ((runCalls stageOne freshStart).ota.status.imageReady = true
      ∧ DigestOfImage (runCalls stageOne freshStart))
    ∧ (otaBegin (fun _ => false) 0 freshStart).2 = .errIo
    ∧ (otaBegin (fun _ => false) 0 freshStart).1.ota.status.imageReady = false := by
  obtain ⟨s, rfl, hs, hr, -⟩ := stageOne_ready
  have hidle : freshStart.ota.status.updateInProgress = false ∧
      freshStart.ota.status.imageReady = false := otaInit_idle _ _ _
  have hio : (otaBegin (fun _ => false) 0 freshStart).2 = .errIo := by
    rw [otaBegin_io hidle.1 (Nat.zero_le _) (eraseSectors_fail rfl _ _ _)]
  have hintact : (Call.begin 0 fun _ => false).Intact freshStart :=
    fun hready => absurd (hidle.2.symm.trans hready) Bool.false_ne_true
  exact ⟨⟨hr, (ready_digestOfImage hs).1 hr⟩, hio,
    ((ready_digestOfImage freshStart_reachable).2 0 _).mp hintact hio⟩

/-- A second `ota_begin` erases one sector and fails: the byte is gone from the
slot, and the image is still ready. -/
theorem failedBegin_breaks :
    transfers.Reachable (runCalls (stageOne ++ [.begin 0 (fun k => k = 0)]) freshStart) ∧
    (runCalls (stageOne ++ [.begin 0 (fun k => k = 0)]) freshStart).ota.status.imageReady = true ∧
    ¬ DigestOfImage (runCalls (stageOne ++ [.begin 0 (fun k => k = 0)]) freshStart) := by
  refine ⟨transfers_runCalls _ freshStart_reachable, ?_⟩
  obtain ⟨s, hs, -, hready, hidle, hcount, hsha⟩ := stageOne_ready
  have hrun : runCalls (stageOne ++ [.begin 0 (fun k => k = 0)]) freshStart
      = (otaBegin (fun k => k = 0) 0 s).1 := by
    rw [runCalls, List.foldl_append]
    exact congrArg (fun s => (otaBegin _ 0 s).1) hs
  have herase : eraseSectors (fun k => k = 0) s.ota.status.stagingSlot.offset
      otaSlotSectors 0 s.flash
      = (flashRangeErase (s.base + 0 * flashSectorSize) flashSectorSize s.flash, false) := by
    rw [show otaSlotSectors = 190 + 1 + 1 from rfl, eraseSectors_succ rfl, eraseSectors_fail rfl]
    rfl
  rw [hrun, otaBegin_io hidle (Nat.zero_le _) herase]
  refine ⟨hready, fun hd => ?_⟩
  have hread : read s.base s.ota.status.bytesWritten
      (NorFlash.erase (s.base + 0 * flashSectorSize) flashSectorSize s.flash.image) = [0xFF] := by
    rw [hcount, read_blank fun i hi => erase_inside (by omega)
      (by rw [show flashSectorSize = 4096 from rfl]; omega)]
    rfl
  have hd' : Fips180.sha256 [0xFF] = Fips180.sha256 [0] := by
    rw [← hsha, ← hread]; exact hd
  exact absurd hd' (by decide +kernel)

end PicoBLE.Ota
