import PicoBLE.Ota.Transfer

/-!
# Streaming an image with a working flash

However an image is cut into chunks, and whatever calls the application makes
in between that `ota_write` and `ota_begin` turn down, the slot ends up with
the image and the status with its digest.
-/

namespace PicoBLE.Ota

open NorFlash
open PicoBLE.Sha256

/-! ## Streams -/

/-- One call of a stream. -/
inductive Item where
  /-- The next bytes of the image. -/
  | chunk (c : Chunk)
  /-- A call that is turned down. -/
  | rejected (c : Call)

def Item.bytes : Item → List UInt8
  | .chunk c => c.1
  | .rejected _ => []

/-- The call made when `sent` bytes have gone before. -/
def Item.call (sent : Nat) : Item → Call
  | .chunk c => .write sent (some c) allOk
  | .rejected c => c

/-- The reasons to turn a call down. -/
inductive Rejected (limit sent : Nat) : Call → Prop where
  | wrongOffset {offset : Nat} {data : Option Chunk} {ok : Nat → Bool} :
    offset ≠ sent → Rejected limit sent (.write offset data ok)
  | null {offset : Nat} {ok : Nat → Bool} : Rejected limit sent (.write offset none ok)
  | empty {offset : Nat} {c : Chunk} {ok : Nat → Bool} :
    c.1 = [] → Rejected limit sent (.write offset (some c) ok)
  | pastLimit {offset : Nat} {c : Chunk} {ok : Nat → Bool} :
    offset + c.1.length > limit → Rejected limit sent (.write offset (some c) ok)
  | busy {imageSize : Nat} {ok : Nat → Bool} : Rejected limit sent (.begin imageSize ok)

/-- Chunks are not empty, and the calls between them have a reason to be turned down. -/
def WellCut (limit : Nat) : Nat → List Item → Prop
  | _, [] => True
  | sent, .chunk c :: rest => c.1 ≠ [] ∧ WellCut limit (sent + c.1.length) rest
  | sent, .rejected c :: rest => Rejected limit sent c ∧ WellCut limit sent rest

/-- The state after a stream. -/
def feed : Nat → List Item → App → App
  | _, [], s => s
  | sent, i :: rest, s => feed (sent + i.bytes.length) rest ((i.call sent).run s).1

/-- Every chunk is accepted, and every other call fails without any effect. -/
def Answered : Nat → List Item → App → Prop
  | _, [], _ => True
  | sent, i :: rest, s =>
    (match i with
      | .chunk _ => ((i.call sent).run s).2 = .ok
      | .rejected _ => ((i.call sent).run s).1 = s ∧ ((i.call sent).run s).2 ≠ .ok)
    ∧ Answered (sent + i.bytes.length) rest ((i.call sent).run s).1

/-! ## One call -/

/-- A successful `ota_begin` starts a transfer of nothing. -/
theorem otaBegin_receiving {ok : Nat → Bool} {n : Nat} {s : App} (h : (otaBegin ok n s).2 = .ok) :
    ∃ f, (otaBegin ok n s).1 = s.begun n f ∧ Receiving (s.begun n f) [] [] := by
  rcases otaBegin_cases ok n s with ⟨r, hr, he, -⟩ | ⟨-, -, f, -, he⟩ | ⟨-, hn, f, hf, he⟩
  · rw [he] at h; exact absurd h hr
  · rw [he] at h; exact absurd h (by simp)
  · exact ⟨f, by rw [he], receiving_begun hn hf⟩

/-- An idle application can begin. -/
theorem otaBegin_succeeds {n : Nat} {s : App} (h : s.ota.status.updateInProgress = false)
    (hn : n ≤ otaSlotSize) : (otaBegin allOk n s).2 = .ok := by
  rcases he : eraseSectors allOk s.ota.status.stagingSlot.offset otaSlotSectors 0 s.flash
    with ⟨f, _ | _⟩
  · have hall :=
      (eraseSectors_ok allOk s.ota.status.stagingSlot.offset otaSlotSectors 0 s.flash).mpr
      fun _ _ _ => rfl
    rw [he] at hall
    exact absurd hall Bool.false_ne_true
  · rw [otaBegin_ok h hn he]

/-- The next chunk is accepted and staged in full. -/
theorem Receiving.chunk {s : App} {acc : List UInt8} (h : Receiving s acc acc) {c : Chunk}
    (hne : c.1 ≠ []) (hfit : acc.length + c.1.length ≤ s.ota.status.limit) :
    otaWrite allOk acc.length (some c.1) s = ((s.wrote allOk c.1).1, .ok)
      ∧ Receiving (s.wrote allOk c.1).1 (acc ++ c.1) (acc ++ c.1) := by
  have hacc : s.ota.status.Accepts acc.length c.1 :=
    ⟨h.active, hne, h.count.symm, Nat.le_trans (Nat.mod_le _ _) hfit⟩
  have hres : (s.wrote allOk c.1).2 = .ok := writePages_ok (fun _ => rfl) _ _ _ _
  obtain ⟨done, -, hall, hrec⟩ := h.wrote hacc c.2 allOk
  rw [hall hres] at hrec
  exact ⟨by rw [otaWrite_accepted hacc, ← hres], hrec⟩

/-- A call with a reason to be turned down is. -/
theorem Receiving.rejected {s : App} {acc : List UInt8} (h : Receiving s acc acc) {c : Call}
    (hc : Rejected s.ota.status.limit acc.length c) : (c.run s).1 = s ∧ (c.run s).2 ≠ .ok := by
  have hS : otaSlotSize = 786432 := rfl
  have hfits := h.fits
  have hlim := OtaStatus.limit_le h.size
  -- a write that fails its checks
  have hwrite : ∀ {offset : Nat} {d : Chunk} (ok : Nat → Bool), ¬ s.ota.status.Accepts offset d.1 →
      ((Call.write offset (some d) ok).run s).1 = s ∧
          ((Call.write offset (some d) ok).run s).2 ≠ .ok := by
    intro offset d ok hno
    obtain ⟨r, hr, he⟩ := otaWrite_rejected hno ok
    show (otaWrite _ _ _ _).1 = s ∧ (otaWrite _ _ _ _).2 ≠ _
    rw [Option.map_some, he]
    rcases hr with rfl | rfl <;> exact ⟨rfl, by simp⟩
  have hnull : ∀ (offset : Nat) (ok : Nat → Bool),
      ((Call.write offset none ok).run s).1 = s ∧ ((Call.write offset none ok).run s).2 ≠ .ok := by
    intro offset ok
    obtain ⟨r, hr, he⟩ := otaWrite_none ok offset s
    show (otaWrite _ _ _ _).1 = s ∧ (otaWrite _ _ _ _).2 ≠ _
    rw [Option.map_none, he]
    rcases hr with rfl | rfl <;> exact ⟨rfl, by simp⟩
  cases hc with
  | @wrongOffset offset data ok hoff =>
    cases data with
    | none => exact hnull _ _
    | some d =>
      refine hwrite ok fun hacc => hoff ?_
      rw [hacc.2.2.1, h.count]
  | null => exact hnull _ _
  | empty he => exact hwrite _ fun hacc => hacc.2.1 he
  | @pastLimit offset d ok hpast =>
    refine hwrite ok fun hacc => ?_
    have hd := d.2
    have hoff := hacc.2.2.1
    have hcount := h.count
    have hle := hacc.2.2.2
    rw [Nat.mod_eq_of_lt (by omega)] at hle
    omega
  | @busy n ok =>
    show (otaBegin ok n s).1 = s ∧ (otaBegin ok n s).2 ≠ _
    rw [otaBegin_busy h.active]
    exact ⟨rfl, by simp⟩

/-! ## An image in one chunk -/

/-- The calls that stage an image in one go. -/
def stageCalls (img : Chunk) : List Call :=
  [.begin 0 allOk, .write 0 (some img) allOk, .finalize allOk]

/-- What each of them does. -/
theorem stageCalls_steps {s : App} (h : s.ota.status.updateInProgress = false) (img : Chunk)
    (hne : img.1 ≠ []) (hfit : img.1.length ≤ otaSlotSize) :
    ∃ f p, (otaBegin allOk 0 s).1 = s.begun 0 f ∧
      (otaWrite allOk 0 (some img.1) (s.begun 0 f)).1 = ((s.begun 0 f).wrote allOk img.1).1 ∧
      (otaFinalize allOk ((s.begun 0 f).wrote allOk img.1).1).1
        = ((s.begun 0 f).wrote allOk img.1).1.finalized p ∧
      Receiving ((s.begun 0 f).wrote allOk img.1).1 img.1 img.1 ∧
      (((s.begun 0 f).wrote allOk img.1).1.finalized p).ota.status.computedSha256.1
        = Fips180.sha256 img.1 ∧
      SlotHolds s.base img.1 p.flash.image := by
  obtain ⟨f, hb, hrec⟩ := otaBegin_receiving (otaBegin_succeeds h (Nat.zero_le _))
  obtain ⟨hw, hrec'⟩ := hrec.chunk (c := img) hne (by
    rw [List.length_nil, Nat.zero_add]; exact hfit)
  obtain ⟨p, hfin, hslot, hsha⟩ := hrec'.finalize_ok allOk rfl
  have hw' := congrArg Prod.fst hw
  have hfin' := congrArg Prod.fst hfin
  exact ⟨f, p, hb, hw', hfin', hrec', hsha, hslot⟩

/-- They leave the image in the slot and its digest in the status. -/
theorem stageCalls_ready {s : App} (h : s.ota.status.updateInProgress = false) {img : Chunk}
    (hne : img.1 ≠ []) (hfit : img.1.length ≤ otaSlotSize) :
    ∃ s', runCalls (stageCalls img) s = s' ∧ s'.ota.status.imageReady = true ∧
      s'.ota.status.updateInProgress = false ∧ s'.ota.status.bytesWritten = img.1.length ∧
      s'.ota.status.computedSha256.1 = Fips180.sha256 img.1 ∧
      SlotHolds s.base img.1 s'.flash.image := by
  obtain ⟨f, p, hb, hw, hfin, hrec, hsha, hslot⟩ := stageCalls_steps h img hne hfit
  refine ⟨((s.begun 0 f).wrote allOk img.1).1.finalized p, ?_, rfl, rfl, hrec.count, hsha, hslot⟩
  show (otaFinalize allOk (otaWrite allOk 0 (some img.1) (otaBegin allOk 0 s).1).1).1 = _
  rw [hb, hw, hfin]

/-! ## The whole stream -/

/-- Streaming `D` on top of `acc`. -/
theorem feed_receiving {s : App} {acc : List UInt8} (items : List Item) (h : Receiving s acc acc)
    (hcut : WellCut s.ota.status.limit acc.length items)
    (hfit : acc.length + (items.flatMap Item.bytes).length ≤ s.ota.status.limit) :
    Answered acc.length items s
      ∧ Receiving (feed acc.length items s) (acc ++ items.flatMap Item.bytes)
          (acc ++ items.flatMap Item.bytes)
      ∧ (feed acc.length items s).base = s.base := by
  induction items generalizing s acc with
  | nil => simpa [Answered, feed] using h
  | cons i rest ih =>
    cases i with
    | chunk c =>
      obtain ⟨hne, hcut⟩ := hcut
      rw [List.flatMap_cons, List.length_append] at hfit
      rw [show (Item.chunk c).bytes = c.1 from rfl] at hfit
      obtain ⟨hrun, hrec⟩ := h.chunk hne (by omega)
      have hrun' : ((Item.chunk c).call acc.length).run s = ((s.wrote allOk c.1).1, .ok) := hrun
      have hcut' : WellCut (s.wrote allOk c.1).1.ota.status.limit (acc ++ c.1).length rest := by
        rw [List.length_append]; exact hcut
      obtain ⟨h1, h2, h3⟩ := ih hrec hcut' (by rw [List.length_append, Nat.add_assoc]; exact hfit)
      rw [List.length_append] at h1 h2 h3
      rw [Answered, feed, hrun', List.flatMap_cons, ← List.append_assoc]
      exact ⟨⟨rfl, h1⟩, h2, h3⟩
    | rejected c =>
      obtain ⟨hrej, hcut⟩ := hcut
      obtain ⟨hsame, hres⟩ := h.rejected hrej
      have hsame' : (((Item.rejected c).call acc.length).run s).1 = s := hsame
      obtain ⟨h1, h2, h3⟩ := ih h hcut (by simpa [Item.bytes] using hfit)
      rw [Answered, feed, hsame', List.flatMap_cons]
      exact ⟨⟨⟨rfl, hres⟩, h1⟩, h2, h3⟩

/-- **Streaming fidelity.** Whatever the chunks and the calls between them, the
slot ends up with the image followed by erased flash, the counter with its
length and the status with its SHA-256. -/
theorem stream_fidelity {n : Nat} {s : App} (hbegin : (otaBegin allOk n s).2 = .ok) (D : List UInt8)
    (hD : D.length ≤ if n ≠ 0 then n else otaSlotSize) (items : List Item)
    (hitems : items.flatMap Item.bytes = D)
    (hcut : WellCut (if n ≠ 0 then n else otaSlotSize) 0 items) :
    Answered 0 items (otaBegin allOk n s).1 ∧
    ∃ s', otaFinalize allOk (feed 0 items (otaBegin allOk n s).1) = (s', .ok) ∧
      s'.ota.status.imageReady = true ∧ s'.base = s.base ∧
      read s.base otaSlotSize s'.flash.image = D ++ List.replicate (otaSlotSize - D.length) 0xFF ∧
      s'.ota.status.bytesWritten = D.length ∧
      s'.ota.status.computedSha256.1 = Fips180.sha256 D := by
  obtain ⟨f, hb, hrec⟩ := otaBegin_receiving hbegin
  rw [hb]
  obtain ⟨hans, hfed, hbase⟩ := feed_receiving items hrec hcut (by
    rw [hitems, List.length_nil, Nat.zero_add]; exact hD)
  rw [hitems, List.nil_append, List.length_nil] at hfed
  obtain ⟨p, hfin, hslot, hsha⟩ := hfed.finalize_ok allOk rfl
  refine ⟨hans, _, hfin, rfl, hbase, ?_, hfed.count, hsha⟩
  have hslot' : SlotHolds s.base D p.flash.image := by
    rw [show s.base = (feed 0 items (s.begun n f)).base from hbase.symm]
    exact hslot
  exact hslot'

/-- Four bytes in two chunks, with three calls that come to nothing. -/
def smallStream : List Item :=
  [.rejected (.write 1 none allOk), .chunk ⟨[1, 2, 3], by decide⟩, .rejected (.begin 0 allOk),
    .rejected (.write 7 (some ⟨[9], by decide⟩) allOk), .chunk ⟨[4], by decide⟩]

theorem smallStream_fidelity :
    WellCut otaSlotSize 0 smallStream ∧ Answered 0 smallStream (otaBegin allOk 0 freshStart).1 ∧
    ∃ s', otaFinalize allOk (feed 0 smallStream (otaBegin allOk 0 freshStart).1) = (s', .ok) ∧
      s'.ota.status.computedSha256.1 = Fips180.sha256 [1, 2, 3, 4] := by
  have hcut : WellCut otaSlotSize 0 smallStream :=
    ⟨.null, by simp, .busy, .wrongOffset (by decide), by simp, trivial⟩
  have hbegin : (otaBegin allOk 0 freshStart).2 = .ok :=
    otaBegin_succeeds (otaInit_idle _ _ _).1 (Nat.zero_le _)
  obtain ⟨hans, s', hfin, -, -, -, -, hsha⟩ :=
    stream_fidelity hbegin [1, 2, 3, 4] (by decide) smallStream rfl hcut
  exact ⟨hcut, hans, s', hfin, hsha⟩

end PicoBLE.Ota
