import PicoBLE.Ota.App
import PicoBLE.Ota.Sha256Proof

/-!
# Streaming an image into the staging slot

One description carries everything: `Staged base s xs` says that the bytes
`xs` have reached the staging area — whole pages of them are in flash, the
tail is in the page buffer, and the rest of the slot is still erased. The
erase loop establishes it for no bytes, the page loop extends it by the part
of its input it got through, and flushing the buffer turns it into a statement
about the flash alone.

A page loop that fails part-way has kept a front part of its input only. The
hash and the byte counter do not know about that: they were advanced before
the loop ran.
-/

namespace PicoBLE.Ota

open NorFlash
open PicoBLE.Sha256

/-! ## The erase loop -/

private theorem sector_succ (k : Nat) :
    (k + 1) * flashSectorSize = k * flashSectorSize + flashSectorSize := Nat.succ_mul _ _

theorem eraseSectors_succ {ok : Nat → Bool} {k : Nat} (h : ok k = true) (base n : Nat) (f : Flash) :
    eraseSectors ok base (n + 1) k f
      = eraseSectors ok base n (k + 1) (flashRangeErase (base + k * flashSectorSize)
        flashSectorSize f) := by
  rw [eraseSectors, h, eraseRange_true]

/-- A loop whose next erase fails stops there. -/
theorem eraseSectors_fail {ok : Nat → Bool} {k : Nat} (h : ok k = false)
    (base n : Nat) (f : Flash) :
    eraseSectors ok base (n + 1) k f = (f, false) := by
  rw [eraseSectors, h, eraseRange_false]

/-- Erasing stays inside the range of the loop. -/
theorem eraseSectors_sameOutside (ok : Nat → Bool) (base n k : Nat) (f : Flash) :
    SameOutside (base + k * flashSectorSize) (n * flashSectorSize) f.image
      (eraseSectors ok base n k f).1.image := by
  induction n generalizing k f with
  | zero => exact SameOutside.refl _ _ _
  | succ n ih =>
    have hk := sector_succ k
    have hn := sector_succ n
    cases hok : ok k with
    | false => rw [eraseSectors_fail hok]; exact SameOutside.refl _ _ _
    | true =>
      rw [eraseSectors_succ hok]
      refine SameOutside.trans
        (g := (flashRangeErase (base + k * flashSectorSize) flashSectorSize f).image) ?_ ?_
      · exact erase_sameOutside _ (Nat.le_refl _) (by omega)
      · intro a ha
        exact ih (k + 1) _ a (by omega)

/-- The loop succeeds exactly when each of its erases does. -/
theorem eraseSectors_ok (ok : Nat → Bool) (base n k : Nat) (f : Flash) :
    (eraseSectors ok base n k f).2 = true ↔ ∀ i, k ≤ i → i < k + n → ok i = true := by
  induction n generalizing k f with
  | zero => simp only [eraseSectors, true_iff]; intro i h1 h2; omega
  | succ n ih =>
    cases hok : ok k with
    | false =>
      rw [eraseSectors_fail hok]
      simp only [Bool.false_eq_true, false_iff, not_forall]
      exact ⟨k, Nat.le_refl _, by omega, by simp [hok]⟩
    | true =>
      rw [eraseSectors_succ hok, ih]
      constructor
      · intro h i h1 h2
        rcases Nat.eq_or_lt_of_le h1 with rfl | h1
        · exact hok
        · exact h i h1 (by omega)
      · intro h i h1 h2
        exact h i (by omega) (by omega)

/-- After a successful loop the range is erased. -/
theorem eraseSectors_blank {ok : Nat → Bool} {base n k : Nat} {f : Flash}
    (h : (eraseSectors ok base n k f).2 = true) :
    Blank (base + k * flashSectorSize) (n * flashSectorSize)
      (eraseSectors ok base n k f).1.image := by
  induction n generalizing k f with
  | zero => intro i hi; omega
  | succ n ih =>
    have hk := sector_succ k
    have hn := sector_succ n
    cases hok : ok k with
    | false => rw [eraseSectors_fail hok] at h; exact absurd h (by simp)
    | true =>
      rw [eraseSectors_succ hok] at h ⊢
      intro i hi
      by_cases h1 : i < flashSectorSize
      · -- the first sector: erased now, left alone by the rest of the loop
        rw [eraseSectors_sameOutside ok base n (k + 1) _ _ (by omega)]
        exact erase_inside (by omega) (by omega)
      · have := ih h (i - flashSectorSize) (by omega)
        rwa [show base + (k + 1) * flashSectorSize + (i - flashSectorSize)
          = base + k * flashSectorSize + i by omega] at this

theorem otaSlotSectors_mul : otaSlotSectors * flashSectorSize = otaSlotSize := rfl

/-! ## What has been staged -/

/-- The bytes `xs` are staged from `base` on. -/
structure Staged (base : Nat) (s : Pages) (xs : List UInt8) : Prop where
  /-- Every byte is in a programmed page or in the buffer. -/
  length : xs.length = s.nextPageOff + s.page.bytes.length
  /-- Pages first, then the buffer. -/
  bytes : read base s.nextPageOff s.flash.image ++ s.page.bytes = xs
  /-- Only whole pages have been programmed. -/
  aligned : flashPageSize ∣ s.nextPageOff
  /-- The rest of the slot is erased. -/
  blank : Blank (base + s.nextPageOff) (otaSlotSize - s.nextPageOff) s.flash.image
  /-- Everything fits. -/
  fits : xs.length ≤ otaSlotSize

theorem slot_pages : flashPageSize ∣ otaSlotSize := ⟨3072, rfl⟩

/-- There is always room for the page the buffer belongs to. -/
theorem Staged.room {base : Nat} {s : Pages} {xs : List UInt8} (h : Staged base s xs)
    (hne : 0 < s.page.bytes.length) : s.nextPageOff + flashPageSize ≤ otaSlotSize := by
  obtain ⟨q, hq⟩ := h.aligned
  obtain ⟨r, hr⟩ := slot_pages
  have hl := h.length
  have hf := h.fits
  rw [show flashPageSize = 256 from rfl] at hq hr ⊢
  omega

/-- What is staged does not depend on the flash outside the slot. -/
theorem Staged.congr {base : Nat} {s : Pages} {xs : List UInt8} (h : Staged base s xs) {f : Flash}
    (hf : ∀ i, i < otaSlotSize → f.image (base + i) = s.flash.image (base + i)) :
    Staged base { s with flash := f } xs where
  length := h.length
  bytes := by
    have hle := h.length
    have hfits := h.fits
    show read base s.nextPageOff f.image ++ s.page.bytes = xs
    rw [read_congr fun i hi => hf i (by omega)]
    exact h.bytes
  aligned := h.aligned
  blank := by
    refine h.blank.congr fun i hi => ?_
    rw [Nat.add_assoc]
    exact hf _ (by omega)
  fits := h.fits

/-- Programming a page image that starts with the buffer. -/
theorem Staged.program {base : Nat} {s : Pages} {xs : List UInt8} (h : Staged base s xs)
    (hne : 0 < s.page.bytes.length) {img : List UInt8} (hlen : img.length = flashPageSize) :
    read base (s.nextPageOff + flashPageSize)
        (NorFlash.program (base + s.nextPageOff) img s.flash.image)
        = read base s.nextPageOff s.flash.image ++ img
      ∧
      Blank (base + (s.nextPageOff + flashPageSize)) (otaSlotSize - (s.nextPageOff + flashPageSize))
          (NorFlash.program (base + s.nextPageOff) img s.flash.image)
      ∧ SameOutside base otaSlotSize s.flash.image
          (NorFlash.program (base + s.nextPageOff) img s.flash.image) := by
  have hroom := h.room hne
  refine ⟨?_, ?_, ?_⟩
  · rw [read_append, read_program_disjoint (by omega), ← hlen, read_program_blank]
    rw [hlen]
    exact h.blank.mono (Nat.le_refl _) (by omega)
  · refine (h.blank.mono (o := base + (s.nextPageOff + flashPageSize)) (by omega)
      (by omega)).congr ?_
    intro i _
    exact program_outside (by omega)
  · exact program_sameOutside _ (Nat.le_add_right _ _) (by omega)

/-! ## The page loop -/

theorem PageBuf.fill_bytes (p : PageBuf) (data : List UInt8) :
    (p.fill data).bytes = p.bytes ++ data.take (flashPageSize - p.bytes.length) := rfl

/-- Buffering input that fits in the slot. -/
theorem Staged.fill {base : Nat} {s : Pages} {xs data : List UInt8} (h : Staged base s xs)
    (hfit : xs.length + data.length ≤ otaSlotSize) :
    Staged base { s with page := s.page.fill data }
      (xs ++ data.take (flashPageSize - s.page.bytes.length)) where
  length := by
    simp only [PageBuf.fill_bytes, List.length_append, h.length]; omega
  bytes := by
    rw [← h.bytes, PageBuf.fill_bytes, List.append_assoc]
  aligned := h.aligned
  blank := h.blank
  fits := by
    rw [List.length_append, List.length_take]; omega

/-- A full buffer becomes a programmed page. -/
theorem Staged.flush {base : Nat} {s : Pages} {xs : List UInt8} (h : Staged base s xs)
    (hfull : s.page.bytes.length = flashPageSize) :
    Staged base ⟨flashRangeProgram (base + s.nextPageOff) s.page.bytes s.flash, PageBuf.empty,
      (s.nextPageOff + flashPageSize) % 2 ^ 32⟩ xs := by
  have hP : flashPageSize = 256 := rfl
  have hS : otaSlotSize = 786432 := rfl
  have hne : 0 < s.page.bytes.length := by omega
  have hroom := h.room hne
  obtain ⟨hread, hblank, -⟩ := h.program hne hfull
  rw [Nat.mod_eq_of_lt (by omega)]
  exact {
    length := by rw [h.length, hfull]; rfl
    bytes := by
      show read _ _ (NorFlash.program _ _ _) ++ [] = _
      rw [List.append_nil, hread, h.bytes]
    aligned := Nat.dvd_add h.aligned (Nat.dvd_refl _)
    blank := hblank
    fits := h.fits }

/-- What the page loop leaves, given what it started from. -/
structure WroteFront (base : Nat) (s : Pages) (data xs : List UInt8) (s' : Pages) (r : OtaResult)
    (done : List UInt8) : Prop where
  /-- It got through a front part of the input. -/
  front : done <+: data
  /-- That part is staged. -/
  staged : Staged base s' (xs ++ done)
  /-- Only the slot was touched. -/
  outside : SameOutside base otaSlotSize s.flash.image s'.flash.image
  /-- Success means all of it. -/
  all : r = .ok → done = data
  /-- The loop only fails with an I/O error. -/
  result : r = .ok ∨ r = .errIo

/-! One turn of the loop: it ends with the input, stops at a page it cannot
program, goes on after one it can, or keeps a page that is not full. -/

theorem programPage_eq_false {ok : Bool} {off : Nat} {page : List UInt8} {f f' : Flash}
    (h : programPage ok off page f = (f', false)) : ok = false ∧ f' = f := by
  cases ok with
  | false => exact ⟨rfl, (congrArg Prod.fst h).symm⟩
  | true => exact absurd (congrArg Prod.snd h) (by simp)

theorem programPage_eq_true {ok : Bool} {off : Nat} {page : List UInt8} {f f' : Flash}
    (h : programPage ok off page f = (f', true)) :
    ok = true ∧ f' = flashRangeProgram off page f := by
  cases ok with
  | false => exact absurd (congrArg Prod.snd h) (by simp)
  | true => exact ⟨rfl, (congrArg Prod.fst h).symm⟩

theorem writePages_nil (ok : Nat → Bool) (base k : Nat) (s : Pages) :
    writePages ok base k s [] = (s, .ok) := by
  rw [writePages, if_pos rfl]

theorem writePages_fail {ok : Nat → Bool} {k : Nat} (hok : ok k = false) (base : Nat) {s : Pages}
    {data : List UInt8} (hne : data ≠ [])
    (hfull : (s.page.fill data).bytes.length = flashPageSize) :
    writePages ok base k s data = ({ s with page := s.page.fill data }, .errIo) := by
  rw [writePages, if_neg hne]
  rw [if_pos hfull, hok, programPage_false]

theorem writePages_full {ok : Nat → Bool} {k : Nat} (hok : ok k = true) (base : Nat) {s : Pages}
    {data : List UInt8} (hne : data ≠ [])
    (hfull : (s.page.fill data).bytes.length = flashPageSize) :
    writePages ok base k s data
      = writePages ok base (k + 1)
          ⟨flashRangeProgram (base + s.nextPageOff) (s.page.fill data).bytes s.flash, PageBuf.empty,
            (s.nextPageOff + flashPageSize) % 2 ^ 32⟩
          (data.drop (flashPageSize - s.page.bytes.length)) := by
  rw [writePages, if_neg hne]
  rw [if_pos hfull, hok, programPage_true]

theorem writePages_short (ok : Nat → Bool) (base k : Nat) {s : Pages} {data : List UInt8}
    (hne : data ≠ []) (hshort : (s.page.fill data).bytes.length ≠ flashPageSize) :
    writePages ok base k s data = ({ s with page := s.page.fill data }, .ok) := by
  rw [writePages, if_neg hne]
  rw [if_neg hshort]

/-- **The page loop.** It stages the input up to the page that could not be programmed. -/
theorem writePages_front (ok : Nat → Bool) (k : Nat) {base : Nat} {s : Pages} (data : List UInt8)
    {xs : List UInt8} (h : Staged base s xs) (hfit : xs.length + data.length ≤ otaSlotSize) :
    ∃ done, WroteFront base s data xs (writePages ok base k s data).1
      (writePages ok base k s data).2 done := by
  induction k, s, data using writePages.induct ok base generalizing xs with
  | case1 k s =>
    rw [writePages_nil]
    exact ⟨[], List.nil_prefix, by simpa using h, SameOutside.refl _ _ _, fun _ => rfl, .inl rfl⟩
  | case2 k s data hne hfull flash hprog =>
    rw [writePages_fail (programPage_eq_false hprog).1 base hne hfull]
    exact ⟨_, List.take_prefix _ _, h.fill hfit, SameOutside.refl _ _ _, by simp, .inr rfl⟩
  | case3 k s data hne hfull flash hprog ih =>
    obtain ⟨hok, rfl⟩ := programPage_eq_true hprog
    have hfill := h.fill hfit
    have hsplit : data.take (flashPageSize - s.page.bytes.length)
        ++ data.drop (flashPageSize - s.page.bytes.length) = data := List.take_append_drop _ _
    have hlen := congrArg List.length hsplit
    rw [List.length_append] at hlen
    obtain ⟨done, hw⟩ := ih (hfill.flush hfull) (by rw [List.length_append]; omega)
    rw [writePages_full hok base hne hfull]
    refine ⟨data.take (flashPageSize - s.page.bytes.length) ++ done, ?_, ?_, ?_, ?_, hw.result⟩
    · conv => rhs; rw [← hsplit]
      exact (List.prefix_append_right_inj _).mpr hw.front
    · rw [← List.append_assoc]; exact hw.staged
    · have hP : flashPageSize = 256 := rfl
      exact (hfill.program (by rw [hfull]; omega) hfull).2.2.trans hw.outside
    · intro hr
      rw [hw.all hr, hsplit]
  | case4 k s data hne hshort =>
    rw [writePages_short ok base k hne hshort]
    have htake : data.take (flashPageSize - s.page.bytes.length) = data := by
      have hle := s.page.le
      have hl := congrArg List.length (s.page.fill_bytes data)
      rw [List.length_append, List.length_take] at hl
      exact List.take_of_length_le (by omega)
    have hfill := h.fill hfit
    rw [htake] at hfill
    exact ⟨data, List.prefix_rfl, hfill, SameOutside.refl _ _ _, fun _ => rfl, .inl rfl⟩

/-- With every program succeeding, the loop gets through all of its input. -/
theorem writePages_ok {ok : Nat → Bool} (hok : ∀ i, ok i = true) (base k : Nat) (s : Pages)
    (data : List UInt8) : (writePages ok base k s data).2 = .ok := by
  induction k, s, data using writePages.induct ok base with
  | case1 k s => rw [writePages_nil]
  | case2 k s data hne hfull flash hprog =>
    rw [hok k] at hprog
    exact absurd (programPage_eq_false hprog).1 (by simp)
  | case3 k s data hne hfull flash hprog ih =>
    obtain ⟨hk, rfl⟩ := programPage_eq_true hprog
    rw [writePages_full hk base hne hfull]
    exact ih
  | case4 k s data hne hshort => rw [writePages_short ok base k hne hshort]

/-! ## Flushing the buffer -/

/-- The slot holds `xs` and is erased after it. -/
def SlotHolds (base : Nat) (xs : List UInt8) (f : Image) : Prop :=
  read base otaSlotSize f = xs ++ List.replicate (otaSlotSize - xs.length) 0xFF

theorem SlotHolds.read {base : Nat} {xs : List UInt8} {f : Image} (h : SlotHolds base xs f)
    (hfit : xs.length ≤ otaSlotSize) : NorFlash.read base xs.length f = xs := by
  rw [← read_take hfit, h, List.take_left' rfl]

/-- The bytes in front of an erased tail are what the slot holds. -/
theorem slotHolds_of_blank {base n : Nat} {xs : List UInt8} {f : Image}
    (hread : NorFlash.read base n f = xs ++ List.replicate (n - xs.length) 0xFF)
    (hblank : Blank (base + n) (otaSlotSize - n) f) (hx : xs.length ≤ n) (hn : n ≤ otaSlotSize) :
    SlotHolds base xs f := by
  have hsplit : NorFlash.read base otaSlotSize f
      = NorFlash.read base n f ++ NorFlash.read (base + n) (otaSlotSize - n) f := by
    rw [← read_append, Nat.add_sub_cancel' hn]
  have hpad : n - xs.length + (otaSlotSize - n) = otaSlotSize - xs.length := by omega
  rw [SlotHolds, hsplit, hread, read_blank hblank, List.append_assoc,
    List.replicate_append_replicate, hpad]

theorem PageBuf.padded_length (p : PageBuf) : p.padded.length = flashPageSize := by
  have := p.le
  rw [PageBuf.padded, List.length_append, List.length_replicate]; omega

/-- **After the flush the staged bytes are all in flash.** -/
theorem flushPage_ok {ok : Bool} {base : Nat} {s s' : Pages} {xs : List UInt8}
    (h : Staged base s xs) (hf : flushPage ok base s = (s', true)) :
    SlotHolds base xs s'.flash.image := by
  have hfits := h.fits
  have hlen := h.length
  unfold flushPage at hf
  by_cases hne : s.page.bytes.length > 0
  · rw [if_pos hne] at hf
    cases ok with
    | false => rw [programPage_false] at hf; exact absurd (congrArg Prod.snd hf) (by simp)
    | true =>
      rw [programPage_true] at hf
      obtain rfl := (congrArg Prod.fst hf).symm
      obtain ⟨hread, hblank, -⟩ := h.program hne s.page.padded_length
      have hle := s.page.le
      have hpad : s.nextPageOff + flashPageSize - xs.length =
          flashPageSize - s.page.bytes.length := by
        omega
      refine slotHolds_of_blank (n := s.nextPageOff + flashPageSize) ?_ hblank
        (by omega) (h.room hne)
      rw [hpad, ← h.bytes, List.append_assoc]
      exact hread
  · rw [if_neg hne] at hf
    obtain rfl := congrArg Prod.fst hf
    have hnil : s.page.bytes = [] := List.length_eq_zero_iff.mp (by omega)
    have hb := h.bytes
    rw [hnil, List.append_nil] at hb
    have hx : xs.length = s.nextPageOff := by rw [hlen, hnil]; rfl
    refine slotHolds_of_blank (n := s.nextPageOff) ?_ h.blank (by omega) (by omega)
    rw [hb, hx, Nat.sub_self, List.replicate_zero, List.append_nil]

/-- A flush that fails changes nothing. -/
theorem flushPage_fail {ok : Bool} {base : Nat} {s s' : Pages}
    (hf : flushPage ok base s = (s', false)) : s' = s := by
  unfold flushPage at hf
  by_cases hne : s.page.bytes.length > 0
  · rw [if_pos hne] at hf
    cases ok with
    | false => rw [programPage_false] at hf; exact (congrArg Prod.fst hf).symm
    | true => rw [programPage_true] at hf; exact absurd (congrArg Prod.snd hf) (by simp)
  · rw [if_neg hne] at hf
    exact absurd (congrArg Prod.snd hf) (by simp)

/-- Flushing stays inside the slot. -/
theorem flushPage_sameOutside (ok : Bool) {base : Nat} {s : Pages} {xs : List UInt8}
    (h : Staged base s xs) :
    SameOutside base otaSlotSize s.flash.image (flushPage ok base s).1.flash.image := by
  unfold flushPage
  by_cases hne : s.page.bytes.length > 0
  · rw [if_pos hne]
    cases ok with
    | false => exact SameOutside.refl _ _ _
    | true => exact (h.program hne s.page.padded_length).2.2
  · rw [if_neg hne]; exact SameOutside.refl _ _ _

theorem flushPage_false {base : Nat} {s : Pages} (hne : s.page.bytes ≠ []) :
    flushPage false base s = (s, false) := by
  unfold flushPage
  rw [if_pos (List.length_pos_iff.mpr hne), programPage_false]

theorem flushPage_true (base : Nat) (s : Pages) : (flushPage true base s).2 = true := by
  unfold flushPage
  by_cases hne : s.page.bytes.length > 0
  · rw [if_pos hne, programPage_true]
  · rw [if_neg hne]

end PicoBLE.Ota
