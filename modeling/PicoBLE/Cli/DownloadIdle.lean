import PicoBLE.Cli.CmdOta

/-!
# What a failed download leaves in progress

`cmd_download` has eight ways out. In front of `ota_begin`, and when that fails,
no update is in progress; behind it, a dropped link and a failed transfer both go
through `ota_abort`. The one that does not is a failed `ota_finalize`: it leaves
the update in progress, and `ota_begin` refuses the next one as busy.

`ota_finalize` fails when there is a page that is not full and this cannot be
programmed. So which chunks are taken, and how many bytes they are, decides.
-/

namespace PicoBLE.Cli

open PicoBLE.Ota

/-! ## What is taken -/

/-- A chunk behind `n` bytes is taken: there is something in it, it fits, and the pages it fills
can be programmed. -/
def ChunkTaken (n : Nat) (c : Chunk × (Nat → Bool)) : Prop :=
  c.1.1 ≠ [] ∧ n + c.1.1.length ≤ otaSlotSize ∧
    ∀ k < (n % flashPageSize + c.1.1.length) / flashPageSize, c.2 k = true

instance (n : Nat) (c : Chunk × (Nat → Bool)) : Decidable (ChunkTaken n c) :=
  inferInstanceAs (Decidable (_ ∧ _ ∧ ∀ k < _, _))

/-- All of them are. -/
def ChunksTaken : Nat → List (Chunk × (Nat → Bool)) → Prop
  | _, [] => True
  | n, c :: chunks => ChunkTaken n c ∧ ChunksTaken (n + c.1.1.length) chunks

/-- The download gets to `ota_finalize`. -/
structure Finalizes (shaHex : Option (List UInt8)) (e : Outcomes) : Prop where
  digest : parseExpected shaHex ≠ none
  wifi : e.wifi 0 = true
  erases : ∀ k < otaSlotSectors, e.flashOk k = true
  link : e.wifi 1 = true ∨ e.wifi 2 = true
  taken : ChunksTaken 0 e.chunks
  http : e.httpOk = true

/-- It does, the last page is not full, and this cannot be programmed. -/
structure LastPageFails (shaHex : Option (List UInt8)) (e : Outcomes) : Prop
    extends Finalizes shaHex e where
  partly : e.body.length % flashPageSize ≠ 0
  flush : e.flushOk 0 = false

/-- No update is in progress, so the next one is not refused as busy. -/
def Idle (s : App) : Prop :=
  s.ota.status.updateInProgress = false ∧ ∀ ok n, (otaBegin ok n s).2 ≠ .errBusy

theorem idle_iff {s : App} : Idle s ↔ s.ota.status.updateInProgress = false := by
  refine ⟨And.left, fun h => ⟨h, fun ok n => ?_⟩⟩
  unfold otaBegin
  rw [h, if_neg Bool.false_ne_true]
  split
  · simp
  · split <;> simp

/-! ## The page loop -/

/-- **The page loop succeeds if the pages that it fills can be programmed**, and keeps the rest. -/
theorem writePages_programs (ok : Nat → Bool) (base k : Nat) (s : Pages) (data : List UInt8)
    (hroom : s.page.bytes.length < flashPageSize) :
    ((writePages ok base k s data).2 = .ok ↔
      ∀ j < (s.page.bytes.length + data.length) / flashPageSize, ok (k + j) = true) ∧
    ((writePages ok base k s data).2 = .ok → (writePages ok base k s data).1.page.bytes.length =
      (s.page.bytes.length + data.length) % flashPageSize) := by
  have hP : 0 < flashPageSize := Nat.succ_pos 255
  have hfilled : ∀ (p : PageBuf) (data : List UInt8),
      (p.fill data).bytes.length = p.bytes.length + min (flashPageSize - p.bytes.length)
          data.length := by
    intro p data
    rw [p.fill_bytes, List.length_append, List.length_take]
  induction k, s, data using writePages.induct ok base with
  | case1 k s =>
    rw [writePages_nil, List.length_nil, Nat.add_zero, Nat.div_eq_of_lt hroom,
      Nat.mod_eq_of_lt hroom]
    exact ⟨⟨fun _ j hj => absurd hj (Nat.not_lt_zero j), fun _ => rfl⟩, fun _ => rfl⟩
  | case2 k s data hne hfull flash hprog =>
    have hok := (programPage_eq_false hprog).1
    rw [writePages_fail hok base hne hfull]
    rw [hfilled] at hfull
    refine ⟨⟨fun hr => absurd hr (by simp), fun hall => ?_⟩, fun hr => absurd hr (by simp)⟩
    have h0 := hall 0 (Nat.div_pos (by omega) hP)
    exact absurd (hok.symm.trans h0) Bool.false_ne_true
  | case3 k s data hne hfull flash hprog ih =>
    obtain ⟨hok, rfl⟩ := programPage_eq_true hprog
    obtain ⟨hiff, hrest⟩ := ih hP
    rw [writePages_full hok base hne hfull]
    rw [hfilled] at hfull
    have hle : flashPageSize ≤ s.page.bytes.length + data.length := by omega
    have hlen :
        PageBuf.empty.bytes.length + (data.drop (flashPageSize - s.page.bytes.length)).length =
        s.page.bytes.length + data.length - flashPageSize := by
      show 0 + _ = _
      rw [List.length_drop]
      omega
    rw [hlen] at hiff hrest
    rw [Nat.div_eq_sub_div hP hle, Nat.mod_eq_sub_mod hle]
    refine ⟨hiff.trans ⟨fun hall j hj => ?_, fun hall j hj => ?_⟩, hrest⟩
    · cases j with
      | zero => exact hok
      | succ j =>
        have hj' := hall j (by omega)
        rwa [Nat.add_assoc, Nat.add_comm 1 j] at hj'
    · have hj' := hall (j + 1) (by omega)
      rwa [Nat.add_comm j 1, ← Nat.add_assoc] at hj'
  | case4 k s data hne hshort =>
    rw [writePages_short ok base k hne hshort]
    have hlen := hfilled s.page data
    have hle := (s.page.fill data).le
    have hlt : s.page.bytes.length + data.length < flashPageSize := by omega
    rw [Nat.div_eq_of_lt hlt, Nat.mod_eq_of_lt hlt]
    refine ⟨⟨fun _ j hj => absurd hj (Nat.not_lt_zero j), fun _ => rfl⟩, fun _ => ?_⟩
    show (s.page.fill data).bytes.length = _
    omega

/-! ## The chunks -/

/-- A download that has been delivered `n` bytes. -/
structure Delivered (s : App) (n : Nat) : Prop where
  active : s.ota.status.updateInProgress = true
  count : s.ota.status.bytesWritten = n
  /-- `ota_begin(0)`: no size is announced. -/
  size : s.ota.status.stagingSize = 0
  page : s.ota.page.bytes.length = n % flashPageSize
  fits : n ≤ otaSlotSize

theorem delivered_begun (s : App) (f : Flash) : Delivered (s.begun 0 f) 0 :=
  ⟨rfl, rfl, rfl, rfl, Nat.zero_le _⟩

theorem onChunk_of_ok {data : Chunk} {ok : Nat → Bool} {st : DlState} {s : App}
    (h : (otaWrite ok st.bytes (some data.1) s).2 = .ok) :
    onChunk data ok st s =
      ((otaWrite ok st.bytes (some data.1) s).1,
        { st with bytes := (st.bytes + data.1.length) % 2 ^ 32 }, true) := by
  unfold onChunk
  exact if_neg (not_not.mpr h)

theorem onChunk_of_error {data : Chunk} {ok : Nat → Bool} {st : DlState} {s : App}
    (h : (otaWrite ok st.bytes (some data.1) s).2 ≠ .ok) :
    onChunk data ok st s = ((otaWrite ok st.bytes (some data.1) s).1,
      { st with error := true }, false) := by
  unfold onChunk
  exact if_pos h

section Chunk

variable {s : App} {n : Nat} {data : Chunk} {ok : Nat → Bool}

/-- The checks of `ota_write`, in a download. -/
theorem Delivered.accepts (h : Delivered s n) :
    s.ota.status.Accepts n data.1 ↔ data.1 ≠ [] ∧ n + data.1.length ≤ otaSlotSize := by
  have hS : otaSlotSize = 786432 := rfl
  have hlen := data.2
  have hfits := h.fits
  have hlimit : s.ota.status.limit = otaSlotSize := by
    rw [OtaStatus.limit, h.size, if_neg (not_not.mpr rfl)]
  unfold OtaStatus.Accepts
  rw [h.active, h.count, hlimit, Nat.mod_eq_of_lt (by omega)]
  simp

theorem Delivered.room (h : Delivered s n) : s.ota.page.bytes.length < flashPageSize := by
  rw [h.page]
  exact Nat.mod_lt n (Nat.succ_pos 255)

/-- **`ota_write` succeeds on the chunks that are taken.** -/
theorem Delivered.write_ok (h : Delivered s n) :
    (otaWrite ok n (some data.1) s).2 = .ok ↔ ChunkTaken n (data, ok) := by
  have hpages := (writePages_programs ok s.ota.status.stagingSlot.offset 0
    ⟨s.flash, s.ota.page, s.ota.nextPageOff⟩ data.1 h.room).1
  simp only [h.page, Nat.zero_add] at hpages
  by_cases hacc : s.ota.status.Accepts n data.1
  · rw [otaWrite_accepted hacc]
    obtain ⟨hne, hfit⟩ := h.accepts.mp hacc
    exact hpages.trans ⟨fun hall => ⟨hne, hfit, hall⟩, fun htaken => htaken.2.2⟩
  · obtain ⟨r, hr, he⟩ := otaWrite_rejected hacc ok
    rw [he]
    refine ⟨fun hok => ?_, fun htaken => absurd (h.accepts.mpr ⟨htaken.1, htaken.2.1⟩) hacc⟩
    obtain rfl : r = .ok := hok
    exact absurd hr (by simp)

theorem Delivered.write (h : Delivered s n) (htaken : ChunkTaken n (data, ok)) :
    Delivered (otaWrite ok n (some data.1) s).1 (n + data.1.length) := by
  have hS : otaSlotSize = 786432 := rfl
  have hfit : n + data.1.length ≤ otaSlotSize := htaken.2.1
  have hacc := h.accepts.mpr ⟨htaken.1, hfit⟩
  have hok := h.write_ok.mpr htaken
  rw [otaWrite_accepted hacc] at hok ⊢
  refine ⟨h.active, ?_, h.size, ?_, hfit⟩
  · show (s.ota.status.bytesWritten + data.1.length) % 2 ^ 32 = _
    rw [h.count, Nat.mod_eq_of_lt (by omega)]
  · have hpage := (writePages_programs ok s.ota.status.stagingSlot.offset 0
      ⟨s.flash, s.ota.page, s.ota.nextPageOff⟩ data.1 h.room).2 hok
    simp only [h.page, Nat.mod_add_mod] at hpage
    exact hpage

end Chunk

/-- All chunks are delivered. -/
theorem fetchChunks_taken {chunks : List (Chunk × (Nat → Bool))} {s : App} {n : Nat}
    (h : Delivered s n) (htaken : ChunksTaken n chunks) :
    ∃ s' m, fetchChunks chunks ⟨n, false⟩ s = (s', ⟨m, false⟩) ∧
      Delivered s' (n + (chunks.map fun c => c.1.1).flatten.length) := by
  induction chunks generalizing s n with
  | nil => exact ⟨s, n, rfl, h⟩
  | cons c chunks ih =>
    obtain ⟨data, ok⟩ := c
    obtain ⟨hone, hrest⟩ := htaken
    have hS : otaSlotSize = 786432 := rfl
    have hfit : n + data.1.length ≤ otaSlotSize := hone.2.1
    obtain ⟨s', m, hs', hdel⟩ := ih (h.write hone) hrest
    refine ⟨s', m, ?_, ?_⟩
    · unfold fetchChunks
      rw [onChunk_of_ok (h.write_ok.mpr hone)]
      dsimp only
      rw [Nat.mod_eq_of_lt (by omega)]
      exact hs'
    · rw [List.map_cons, List.flatten_cons, List.length_append, ← Nat.add_assoc]
      exact hdel

/-- One is refused. -/
theorem fetchChunks_refused {chunks : List (Chunk × (Nat → Bool))} {s : App} {n : Nat}
    (h : Delivered s n) (hno : ¬ ChunksTaken n chunks) :
    (fetchChunks chunks ⟨n, false⟩ s).2.error = true := by
  induction chunks generalizing s n with
  | nil => exact absurd trivial hno
  | cons c chunks ih =>
    obtain ⟨data, ok⟩ := c
    unfold fetchChunks
    by_cases hone : ChunkTaken n (data, ok)
    · have hS : otaSlotSize = 786432 := rfl
      have hfit : n + data.1.length ≤ otaSlotSize := hone.2.1
      rw [onChunk_of_ok (h.write_ok.mpr hone)]
      dsimp only
      rw [Nat.mod_eq_of_lt (by omega)]
      exact ih (h.write hone) fun hrest => hno ⟨hone, hrest⟩
    · rw [onChunk_of_error fun hok => hone (h.write_ok.mp hok)]

/-! ## The ways out -/

/-- `ota_finalize` leaves the update in progress if there is a last page and it fails. -/
theorem Delivered.finalize {s : App} {n : Nat} (h : Delivered s n) (ok : Nat → Bool) :
    (otaFinalize ok s).1.ota.status.updateInProgress = false ↔
      ¬ (n % flashPageSize ≠ 0 ∧ ok 0 = false) := by
  rcases hf : flushPage (ok 0) s.base s.pages with ⟨p, _ | _⟩
  · rw [otaFinalize_io h.active hf, h.active]
    refine ⟨fun hc => absurd hc (by simp), fun hno => absurd ⟨?_, ?_⟩ hno⟩
    · -- an empty buffer is not programmed
      intro hzero
      have hempty : ¬ s.pages.page.bytes.length > 0 := by
        show ¬ s.ota.page.bytes.length > 0
        rw [h.page, hzero]
        exact Nat.lt_irrefl 0
      unfold flushPage at hf
      rw [if_neg hempty] at hf
      exact absurd (congrArg Prod.snd hf) (by simp)
    · refine Bool.eq_false_of_not_eq_true fun hok => ?_
      have htrue := flushPage_true s.base s.pages
      rw [hok] at hf
      rw [hf] at htrue
      exact Bool.false_ne_true htrue
  · rw [otaFinalize_ok h.active hf]
    refine ⟨fun _ hfail => ?_, fun _ => rfl⟩
    have hne : s.pages.page.bytes ≠ [] := by
      intro hnil
      have hpage := h.page
      rw [show s.ota.page.bytes = [] from hnil] at hpage
      exact hfail.1 hpage.symm
    rw [hfail.2, flushPage_false hne] at hf
    exact absurd (congrArg Prod.snd hf) (by simp)

/-- `ota_begin` of `cmd_download` starts exactly if all erases succeed. -/
theorem otaBegin_download (ok : Nat → Bool) {s : App}
    (hidle : s.ota.status.updateInProgress = false) :
    (¬ (∀ k < otaSlotSectors, ok k = true) ∧
      ∃ f, otaBegin ok 0 s = ({ s with flash := f }, .errIo)) ∨
    ((∀ k < otaSlotSectors, ok k = true) ∧ ∃ f, otaBegin ok 0 s = (s.begun 0 f, .ok)) := by
  have herases := eraseSectors_ok ok s.ota.status.stagingSlot.offset otaSlotSectors 0 s.flash
  rcases otaBegin_cases ok 0 s with ⟨-, -, -, hbusy | hsize⟩ | ⟨-, -, f, hf, he⟩ | ⟨-, -, f, hf, he⟩
  · exact absurd (hidle.symm.trans hbusy) Bool.false_ne_true
  · exact absurd hsize (Nat.not_lt_zero _)
  · rw [hf] at herases
    refine .inl ⟨fun hall => Bool.false_ne_true (herases.mpr fun k _ hk => hall k ?_), f, he⟩
    omega
  · rw [hf] at herases
    refine .inr ⟨fun k hk => herases.mp rfl k (Nat.zero_le k) ?_, f, he⟩
    omega

/-- **All ways out but one**: nothing is in progress behind those that do not get to
`ota_finalize`, and those that do come there with the whole body. -/
theorem cmdDownload_finalizes (shaHex : Option (List UInt8)) (e : Outcomes) {s : App}
    (hidle : s.ota.status.updateInProgress = false) :
    ((cmdDownload shaHex e s).1.ota.status.updateInProgress = false ∧ ¬ Finalizes shaHex e) ∨
    (Finalizes shaHex e ∧ ∃ s', Delivered s' e.body.length ∧
      (cmdDownload shaHex e s).1 = (otaFinalize e.flushOk s').1) := by
  unfold cmdDownload
  cases hx : parseExpected shaHex with
  | none => exact .inl ⟨hidle, fun h => h.digest hx⟩
  | some expected =>
    dsimp only
    by_cases hw : e.wifi 0 = true
    case neg => rw [if_pos hw]; exact .inl ⟨hidle, fun h => hw h.wifi⟩
    rw [if_neg (not_not.mpr hw)]
    rcases otaBegin_download e.flashOk hidle with ⟨hno, f, he⟩ | ⟨hall, f, he⟩
    · rw [he, if_pos (by simp)]
      exact .inl ⟨hidle, fun h => hno h.erases⟩
    · rw [he, if_neg (not_not.mpr rfl)]
      have hdel := delivered_begun s f
      by_cases hlink : ¬ e.wifi 1 = true ∧ ¬ e.wifi 2 = true
      · rw [if_pos hlink]
        exact .inl ⟨(otaAbort_idle _ hdel.active).1, fun h => h.link.elim hlink.1 hlink.2⟩
      rw [if_neg hlink]
      have hlink' : e.wifi 1 = true ∨ e.wifi 2 = true := by
        by_contra hno
        exact hlink (not_or.mp hno)
      -- a chunk that is refused, and a transfer that fails, both end in `ota_abort`
      have hunder : Underway (fetchChunks e.chunks ⟨0, false⟩ (s.begun 0 f)).1 :=
        Underway.fetchChunks ⟨rfl, rfl⟩ e.chunks ⟨0, false⟩
      by_cases htaken : ChunksTaken 0 e.chunks
      case neg =>
        rw [if_pos (.inr (fetchChunks_refused hdel htaken))]
        exact .inl ⟨(otaAbort_idle _ hunder.1).1, fun h => htaken h.taken⟩
      by_cases hhttp : e.httpOk = true
      case neg =>
        rw [if_pos (.inl hhttp)]
        exact .inl ⟨(otaAbort_idle _ hunder.1).1, fun h => hhttp h.http⟩
      obtain ⟨s', m, hg, hs'⟩ := fetchChunks_taken hdel htaken
      rw [Nat.zero_add] at hs'
      have hgo : ¬ (¬ e.httpOk = true ∨
          (fetchChunks e.chunks ⟨0, false⟩ (s.begun 0 f)).2.error = true) := by
        rw [hg]
        exact fun h => h.elim (fun hno => hno hhttp) (fun herr => Bool.false_ne_true herr)
      rw [if_neg hgo, hg]
      refine .inr ⟨⟨by simp [hx], hw, hall, hlink', htaken, hhttp⟩, s', hs', ?_⟩
      dsimp only
      split <;> rfl

/-- **A download leaves the engine idle, unless its last page is not full and fails.** -/
theorem download_idle {shaHex : Option (List UInt8)} {e : Outcomes} {s : App}
    (hidle : s.ota.status.updateInProgress = false) :
    Idle (cmdDownload shaHex e s).1 ↔ ¬ LastPageFails shaHex e := by
  rw [idle_iff]
  rcases cmdDownload_finalizes shaHex e hidle with ⟨hp, hno⟩ | ⟨hfin, s', hdel, hs'⟩
  · exact ⟨fun _ h => hno h.toFinalizes, fun _ => hp⟩
  · rw [hs', hdel.finalize]
    exact not_congr ⟨fun h => ⟨hfin, h.1, h.2⟩, fun h => ⟨h.partly, h.flush⟩⟩

/-! ## Three bytes -/

/-- The application after start-up, with an erased flash. -/
def started : App := otaInit .a allOk ⟨⟨fun _ => 0xFF, []⟩, .zero⟩

/-- Three bytes arrive, and the page they are in may not be programmed. -/
def tornDownload (flushed : Bool) : Outcomes where
  wifi _ := true
  flashOk := allOk
  chunks := [(⟨[4, 5, 6], by decide⟩, allOk)]
  httpOk := true
  flushOk _ := flushed

theorem tornDownload_idle : started.ota.status.updateInProgress = false ∧
    (Idle (cmdDownload none (tornDownload true) started).1 ↔
      ¬ LastPageFails none (tornDownload true)) :=
  ⟨rfl, download_idle rfl⟩

/-- The last page fails: the update is in progress, and the next one is refused. -/
theorem tornDownload_busy : started.ota.status.updateInProgress = false ∧
    (cmdDownload none (tornDownload false) started).2 = .finalizeFailed ∧
    (cmdDownload none (tornDownload false) started).1.ota.status.updateInProgress = true ∧
    (otaBegin allOk 0 (cmdDownload none (tornDownload false) started).1).2 = .errBusy := by
  decide +kernel

end PicoBLE.Cli
