import PicoBLE.Ota.Probation
import PicoBLE.Ota.System

/-!
# Where `ota.c` writes

Three properties of the erase and program operations that the calls of `ota.c`
perform, whichever of them succeed.

**F1 — They stay in their region.** A transfer works on the staging slot, the
other calls on the metadata sector, by whole sectors and whole pages.

**F2 — A staged page is programmed once.** Between two erases no byte of a slot
is programmed twice. The page offset only moves on over pages it has
programmed, and it is behind it that a page has been programmed.

**F3 — Nothing else changes.** Immediate from F1: not the running slot, not the
bootloader, not what lies behind the metadata sector.
-/

namespace PicoBLE.Ota

open NorFlash
open PicoBLE.Bootloader

/-! ## Performing operations -/

/-- An aligned operation inside a region. -/
def FlashOp.Within (off len : Nat) : FlashOp → Prop
  | .erase o l => flashSectorSize ∣ o ∧ flashSectorSize ∣ l ∧ off ≤ o ∧ o + l ≤ off + len
  | .program o l => flashPageSize ∣ o ∧ flashPageSize ∣ l ∧ off ≤ o ∧ o + l ≤ off + len

/-- The second flash is the first after operations that all meet `P`. -/
inductive Performs (P : FlashOp → Prop) (f : Flash) : Flash → Prop where
  | refl : Performs P f f
  | erase {g : Flash} {o l : Nat} : Performs P f g → P (.erase o l) →
    Performs P f (flashRangeErase o l g)
  | program {g : Flash} {o : Nat} {data : List UInt8} : Performs P f g →
    P (.program o data.length) → Performs P f (flashRangeProgram o data g)

theorem Performs.trans {P : FlashOp → Prop} {f g h : Flash} (h1 : Performs P f g)
    (h2 : Performs P g h) : Performs P f h := by
  induction h2 with
  | refl => exact h1
  | erase _ hp ih => exact ih.erase hp
  | program _ hp ih => exact ih.program hp

theorem Performs.mono {P Q : FlashOp → Prop} {f g : Flash} (h : Performs P f g)
    (hle : ∀ op, P op → Q op) : Performs Q f g := by
  induction h with
  | refl => exact .refl
  | erase _ hp ih => exact ih.erase (hle _ hp)
  | program _ hp ih => exact ih.program (hle _ hp)

/-- What was performed is what was added to the log. -/
theorem Performs.log {P : FlashOp → Prop} {f g : Flash} (h : Performs P f g) :
    ∃ ops, g.log = ops ++ f.log ∧ ∀ op ∈ ops, P op := by
  induction h with
  | refl => exact ⟨[], rfl, by simp⟩
  | @erase g o l _ hp ih =>
    obtain ⟨ops, hlog, hops⟩ := ih
    refine ⟨.erase o l :: ops, congrArg _ hlog, fun op hop => ?_⟩
    rcases List.mem_cons.mp hop with rfl | hop
    · exact hp
    · exact hops op hop
  | @program g o data _ hp ih =>
    obtain ⟨ops, hlog, hops⟩ := ih
    refine ⟨.program o data.length :: ops, congrArg _ hlog, fun op hop => ?_⟩
    rcases List.mem_cons.mp hop with rfl | hop
    · exact hp
    · exact hops op hop

/-- Operations inside a region leave the outside alone. -/
theorem Performs.sameOutside {off len : Nat} {f g : Flash}
    (h : Performs (FlashOp.Within off len) f g) : SameOutside off len f.image g.image := by
  induction h with
  | refl => exact SameOutside.refl _ _ _
  | erase _ hp ih => exact ih.trans (erase_sameOutside _ hp.2.2.1 hp.2.2.2)
  | program _ hp ih => exact ih.trans (program_sameOutside _ hp.2.2.1 hp.2.2.2)

theorem performs_eraseRange {P : FlashOp → Prop} {off len : Nat} (hp : P (.erase off len))
    (ok : Bool) (f : Flash) : Performs P f (eraseRange ok off len f).1 := by
  cases ok with
  | false => exact .refl
  | true => exact Performs.refl.erase hp

theorem performs_programPage {P : FlashOp → Prop} {off : Nat} {page : List UInt8}
    (hp : P (.program off page.length)) (ok : Bool) (f : Flash) :
    Performs P f (programPage ok off page f).1 := by
  cases ok with
  | false => exact .refl
  | true => exact Performs.refl.program hp

/-! ## F1 for the metadata sector -/

/-- The metadata sector. -/
abbrev InMetadata : FlashOp → Prop := FlashOp.Within otaMetadataOffset flashSectorSize

theorem performs_writeMetadata (ok : Nat → Bool) (m : OtaMetadata) (f : Flash) :
    Performs InMetadata f (writeMetadata ok m f).1 := by
  have herase : InMetadata (.erase otaMetadataOffset flashSectorSize) :=
    ⟨⟨388, rfl⟩, Nat.dvd_refl _, Nat.le_refl _, Nat.le_refl _⟩
  have hprogram : InMetadata (.program otaMetadataOffset m.seal.page.length) := by
    rw [OtaMetadata.page_length]
    exact ⟨⟨6208, rfl⟩, Nat.dvd_refl _, Nat.le_refl _, by decide⟩
  unfold writeMetadata
  have h1 := performs_eraseRange herase (ok 0) f
  rcases he : eraseRange (ok 0) otaMetadataOffset flashSectorSize f with ⟨g, _ | _⟩
  · rw [he] at h1; exact h1
  · rw [he] at h1
    exact h1.trans (performs_programPage hprogram (ok 1) g)

theorem performs_otaInit (slot : Slot) (ok : Nat → Bool) (s : App) :
    Performs InMetadata s.flash (otaInit slot ok s).flash := by
  unfold otaInit
  dsimp only
  split
  · exact .refl
  · exact performs_writeMetadata ok _ _

theorem performs_otaApply (slot : Slot) (ok : Nat → Bool) (s : App) :
    Performs InMetadata s.flash (otaApply slot ok s).1.flash := by
  unfold otaApply
  split
  · exact .refl
  · have h :=
      performs_writeMetadata ok (applyMutator s.ota.status (currentRecord slot s.flash.image))
      s.flash
    rcases he : updateMetadata slot ok (applyMutator s.ota.status) s.flash with ⟨g, _ | _⟩ <;>
    · rw [updateMetadata] at he
      rw [he] at h
      exact h

theorem performs_otaConfirm (slot : Slot) (ok : Nat → Bool) (s : App) :
    Performs InMetadata s.flash (otaConfirm slot ok s).flash := by
  unfold otaConfirm
  split
  · exact .refl
  · have h := performs_writeMetadata ok (confirmMutator (currentRecord slot s.flash.image)) s.flash
    rcases he : updateMetadata slot ok confirmMutator s.flash with ⟨g, _ | _⟩ <;>
    · rw [updateMetadata] at he
      rw [he] at h
      exact h

/-- The bootloader writes there too, and nowhere else. -/
theorem performs_writeThen {power : Nat → Bool} (m : OtaMetadata) (f : Flash)
    {next : Flash → Flash × Boot} (hnext : ∀ g, Performs InMetadata g (next g).1) :
    Performs InMetadata f (writeThen power m f next).1 := by
  unfold writeThen
  rw [writeMetadata_eq]
  have h := performs_writeMetadata power m f
  rcases he : Ota.writeMetadata power m f with ⟨g, _ | _⟩
  · rw [he] at h; exact h
  · rw [he] at h; exact h.trans (hnext g)

theorem performs_enterActive (power : Nat → Bool) (m : OtaMetadata) (f : Flash) :
    Performs InMetadata f (enterActive power m f).1 := by
  unfold enterActive
  dsimp only
  split
  · split
    · exact performs_writeThen _ _ fun _ => .refl
    · exact .refl
  · exact .refl

theorem performs_main (power : Nat → Bool) (f : Flash) :
    Performs InMetadata f (main power f).1 := by
  unfold main
  split
  · split
    · exact performs_writeThen _ _ fun _ => .refl
    · exact .refl
  · split
    · exact performs_writeThen _ _ fun _ => .refl
    · split
      · exact performs_writeThen _ _ fun _ => performs_enterActive _ _ _
      · exact performs_enterActive _ _ _

/-! ## F1 for the staging slot -/

/-- A slot. -/
abbrev InSlot (slot : Slot) : FlashOp → Prop := FlashOp.Within slot.offset otaSlotSize

theorem slot_sectors (slot : Slot) : flashSectorSize ∣ slot.offset := by
  cases slot
  · exact ⟨4, rfl⟩
  · exact ⟨196, rfl⟩

theorem slot_offset_pages (slot : Slot) : flashPageSize ∣ slot.offset :=
  Nat.dvd_trans ⟨16, rfl⟩ (slot_sectors slot)

theorem performs_eraseSectors (ok : Nat → Bool) (slot : Slot) {n k : Nat}
    (hn : k + n ≤ otaSlotSectors) (f : Flash) :
    Performs (InSlot slot) f (eraseSectors ok slot.offset n k f).1 := by
  induction n generalizing k f with
  | zero => exact .refl
  | succ n ih =>
    cases hok : ok k with
    | false => rw [eraseSectors_fail hok]; exact .refl
    | true =>
      rw [eraseSectors_succ hok]
      refine Performs.trans (.erase .refl ⟨?_, Nat.dvd_refl _, Nat.le_add_right _ _, ?_⟩)
        (ih (by omega) _)
      · exact Nat.dvd_add (slot_sectors slot) (Nat.dvd_mul_left _ _)
      · have hk : (k + 1) * flashSectorSize ≤ otaSlotSectors * flashSectorSize :=
          Nat.mul_le_mul_right _ (by omega)
        rw [otaSlotSectors_mul, Nat.succ_mul] at hk
        omega

/-- The page at the staging offset. -/
theorem Staged.page_within {slot : Slot} {s : Pages} {xs img : List UInt8}
    (h : Staged slot.offset s xs) (hne : 0 < s.page.bytes.length)
    (hlen : img.length = flashPageSize) :
    InSlot slot (.program (slot.offset + s.nextPageOff) img.length) := by
  have hroom := h.room hne
  rw [hlen]
  exact ⟨Nat.dvd_add (slot_offset_pages slot) h.aligned, Nat.dvd_refl _,
    Nat.le_add_right _ _, by omega⟩

/-! ## F2: how often a byte has been programmed -/

/-- How often the byte at `a` has been programmed since it was last erased; the
log has the newest operation first. -/
def programsOf (a : Nat) : List FlashOp → Nat
  | [] => 0
  | .erase o l :: log => if o ≤ a ∧ a < o + l then 0 else programsOf a log
  | .program o l :: log => if o ≤ a ∧ a < o + l then programsOf a log + 1 else programsOf a log

/-- At no moment so far has a byte of the range been programmed twice between erases. -/
def Once (lo hi : Nat) (log : List FlashOp) : Prop :=
  ∀ log', log' <:+ log → ∀ a, lo ≤ a → a < hi → programsOf a log' ≤ 1

/-- No byte of the range has been programmed since it was erased. -/
def Fresh (lo hi : Nat) (log : List FlashOp) : Prop :=
  ∀ a, lo ≤ a → a < hi → programsOf a log = 0

section Counting

variable {lo hi o l : Nat} {log : List FlashOp}

theorem once_nil (lo hi : Nat) : Once lo hi [] := by
  intro log' hs a _ _
  rw [List.eq_nil_of_suffix_nil hs]
  exact Nat.zero_le _

theorem programsOf_erase_le (a : Nat) : programsOf a (.erase o l :: log) ≤ programsOf a log := by
  rw [programsOf]
  split
  · exact Nat.zero_le _
  · exact Nat.le_refl _

theorem Once.erase (h : Once lo hi log) : Once lo hi (.erase o l :: log) := by
  intro log' hs a h1 h2
  rcases List.suffix_cons_iff.mp hs with rfl | hs
  · exact Nat.le_trans (programsOf_erase_le a) (h log List.suffix_rfl a h1 h2)
  · exact h log' hs a h1 h2

theorem Once.program (h : Once lo hi log)
    (hf : ∀ a, lo ≤ a → a < hi → o ≤ a → a < o + l → programsOf a log = 0) :
    Once lo hi (.program o l :: log) := by
  intro log' hs a h1 h2
  rcases List.suffix_cons_iff.mp hs with rfl | hs
  · rw [programsOf]
    split
    · rename_i hin
      rw [hf a h1 h2 hin.1 hin.2]
    · exact h log List.suffix_rfl a h1 h2
  · exact h log' hs a h1 h2

theorem Fresh.erase (h : Fresh lo hi log) : Fresh lo hi (.erase o l :: log) := fun a h1 h2 =>
  Nat.le_zero.mp (Nat.le_trans (programsOf_erase_le a) (Nat.le_of_eq (h a h1 h2)))

/-- Programming in front of a range leaves it as it was. -/
theorem Fresh.program (h : Fresh lo hi log) (hle : o + l ≤ lo) :
    Fresh lo hi (.program o l :: log) := by
  intro a h1 h2
  rw [programsOf, if_neg (by omega)]
  exact h a h1 h2

theorem Fresh.mono {lo' : Nat} (h : Fresh lo hi log) (hle : lo ≤ lo') : Fresh lo' hi log :=
  fun a h1 h2 => h a (Nat.le_trans hle h1) h2

end Counting

/-- Operations elsewhere do not count. -/
theorem Performs.programsOf_eq {off len : Nat} {f g : Flash}
    (h : Performs (FlashOp.Within off len) f g) {a : Nat} (ha : a < off ∨ off + len ≤ a) :
    programsOf a g.log = programsOf a f.log := by
  induction h with
  | refl => rfl
  | erase _ hp ih =>
    obtain ⟨-, -, h1, h2⟩ := hp
    rw [← ih]
    exact if_neg (by omega)
  | program _ hp ih =>
    obtain ⟨-, -, h1, h2⟩ := hp
    rw [← ih]
    exact if_neg (by omega)

theorem Performs.once {off len lo hi : Nat} {f g : Flash}
    (h : Performs (FlashOp.Within off len) f g) (hd : hi ≤ off ∨ off + len ≤ lo)
    (ho : Once lo hi f.log) : Once lo hi g.log := by
  induction h with
  | refl => exact ho
  | erase _ hp ih => exact ih.erase
  | program _ hp ih =>
    obtain ⟨-, -, h1, h2⟩ := hp
    refine ih.program fun a _ _ _ _ => ?_
    omega

/-! A transfer: what lies behind the page offset has not been programmed. -/

/-- The programs of the pages staged so far are accounted for. -/
structure Accounted (base : Nat) (s : Pages) : Prop where
  once : Once base (base + otaSlotSize) s.flash.log
  fresh : Fresh (base + s.nextPageOff) (base + otaSlotSize) s.flash.log

/-- Erasing makes no byte less fresh. -/
theorem eraseSectors_programsOf_le (a : Nat) (ok : Nat → Bool) (base n k : Nat) (f : Flash) :
    programsOf a (eraseSectors ok base n k f).1.log ≤ programsOf a f.log := by
  induction n generalizing k f with
  | zero => exact Nat.le_refl _
  | succ n ih =>
    cases hok : ok k with
    | false => rw [eraseSectors_fail hok]
    | true =>
      rw [eraseSectors_succ hok]
      exact Nat.le_trans (ih _ _) (programsOf_erase_le a)

theorem eraseSectors_once {lo hi : Nat} (ok : Nat → Bool) (base n k : Nat) {f : Flash}
    (h : Once lo hi f.log) : Once lo hi (eraseSectors ok base n k f).1.log := by
  induction n generalizing k f with
  | zero => exact h
  | succ n ih =>
    cases hok : ok k with
    | false => rw [eraseSectors_fail hok]; exact h
    | true =>
      rw [eraseSectors_succ hok]
      exact ih _ h.erase

/-- A successful erase loop leaves a fresh range. -/
theorem eraseSectors_fresh {ok : Nat → Bool} {base n k : Nat} {f : Flash}
    (h : (eraseSectors ok base n k f).2 = true) :
    Fresh (base + k * flashSectorSize) (base + (k + n) * flashSectorSize)
      (eraseSectors ok base n k f).1.log := by
  induction n generalizing k f with
  | zero => intro a h1 h2; rw [Nat.add_zero] at h2; omega
  | succ n ih =>
    cases hok : ok k with
    | false => rw [eraseSectors_fail hok] at h; exact absurd h Bool.false_ne_true
    | true =>
      rw [eraseSectors_succ hok] at h ⊢
      intro a h1 h2
      by_cases hin : a < base + (k + 1) * flashSectorSize
      · -- in the sector erased first: later erases cannot make it less fresh
        refine Nat.le_zero.mp (Nat.le_trans
          (eraseSectors_programsOf_le a ok base n (k + 1) _) (Nat.le_of_eq ?_))
        rw [Nat.succ_mul] at hin
        exact if_pos ⟨h1, by omega⟩
      · exact ih h a (by omega) (by rw [show k + 1 + n = k + (n + 1) by omega]; exact h2)

/-- **The page loop** stays in the slot, and programs each page once. -/
theorem writePages_accounted (ok : Nat → Bool) (k : Nat) {slot : Slot} {s : Pages}
    (data : List UInt8) {xs : List UInt8} (h : Staged slot.offset s xs)
    (hfit : xs.length + data.length ≤ otaSlotSize) (ha : Accounted slot.offset s) :
    Performs (InSlot slot) s.flash (writePages ok slot.offset k s data).1.flash ∧
    Accounted slot.offset (writePages ok slot.offset k s data).1 := by
  induction k, s, data using writePages.induct ok slot.offset generalizing xs with
  | case1 k s => rw [writePages_nil]; exact ⟨.refl, ha⟩
  | case2 k s data hne hfull flash hprog =>
    rw [writePages_fail (programPage_eq_false hprog).1 slot.offset hne hfull]
    exact ⟨.refl, ha.once, ha.fresh⟩
  | case3 k s data hne hfull flash hprog ih =>
    obtain ⟨hok, rfl⟩ := programPage_eq_true hprog
    have hfill := h.fill hfit
    have hP : flashPageSize = 256 := rfl
    have hS : otaSlotSize = 786432 := rfl
    have hpos : 0 < (s.page.fill data).bytes.length := by omega
    have hroom := hfill.room hpos
    dsimp only at hroom
    have hlen := congrArg List.length
      (List.take_append_drop (flashPageSize - s.page.bytes.length) data)
    rw [List.length_append] at hlen
    have hstaged := hfill.flush hfull
    -- the page at the offset is programmed, and the offset moves behind it
    have hacc : Accounted slot.offset
        ⟨flashRangeProgram (slot.offset + s.nextPageOff) (s.page.fill data).bytes s.flash,
          PageBuf.empty, (s.nextPageOff + flashPageSize) % 2 ^ 32⟩ := by
      constructor
      · refine ha.once.program fun a _ h2 h3 _ => ?_
        exact ha.fresh a h3 h2
      · dsimp only
        rw [Nat.mod_eq_of_lt (by omega)]
        refine Fresh.program (ha.fresh.mono (by omega)) ?_
        rw [hfull]
        omega
    obtain ⟨hperf, hacc'⟩ := ih hstaged (by rw [List.length_append]; omega) hacc
    rw [writePages_full hok slot.offset hne hfull]
    exact ⟨(Performs.refl.program (hfill.page_within hpos hfull)).trans hperf, hacc'⟩
  | case4 k s data hne hshort =>
    rw [writePages_short ok slot.offset k hne hshort]
    exact ⟨.refl, ha.once, ha.fresh⟩

/-! ## One call -/

/-- What a call is given and leaves: each page programmed once, and in a
transfer the pages at and behind the offset not at all. -/
structure Programmed (slot : Slot) (s : App) : Prop where
  once : Once slot.offset (slot.offset + otaSlotSize) s.flash.log
  fresh : s.ota.status.updateInProgress = true →
    Fresh (slot.offset + s.ota.nextPageOff) (slot.offset + otaSlotSize) s.flash.log

/-- A call works on its slot and programs a page once. -/
def Proper (slot : Slot) (s s' : App) : Prop :=
  Performs (InSlot slot) s.flash s'.flash ∧ Programmed slot s'

section Call

variable {slot : Slot} {s : App}

theorem begin_footprint (hst : s.ota.status.stagingSlot = slot) (hp : Programmed slot s)
    (n : Nat) (ok : Nat → Bool) : Proper slot s (otaBegin ok n s).1 := by
  have hperf := performs_eraseSectors ok slot (n := otaSlotSectors) (k := 0) (by omega) s.flash
  have honce := eraseSectors_once ok slot.offset otaSlotSectors 0 hp.once
  rcases otaBegin_cases ok n s with ⟨r, -, he, -⟩ | ⟨hidle, -, f, hf, he⟩ | ⟨-, -, f, hf, he⟩
  · rw [he]; exact ⟨.refl, hp⟩
  · rw [he]
    rw [hst] at hf
    rw [hf] at hperf honce
    exact ⟨hperf, honce, fun hin => absurd (hidle.symm.trans hin) Bool.false_ne_true⟩
  · rw [he]
    rw [hst] at hf
    have hfresh := eraseSectors_fresh (congrArg Prod.snd hf)
    rw [hf] at hperf honce hfresh
    rw [Nat.zero_mul, Nat.zero_add, otaSlotSectors_mul] at hfresh
    exact ⟨hperf, honce, fun _ => hfresh⟩

theorem write_footprint (hst : s.ota.status.stagingSlot = slot) (ht : Tracked s)
    (hp : Programmed slot s) (offset : Nat) (data : Option Chunk) (ok : Nat → Bool) :
    Proper slot s (otaWrite ok offset (data.map Subtype.val) s).1 := by
  cases data with
  | none =>
    obtain ⟨r, -, he⟩ := otaWrite_none ok offset s
    rw [Option.map_none, he]
    exact ⟨.refl, hp⟩
  | some d =>
    rw [Option.map_some]
    by_cases hacc : s.ota.status.Accepts offset d.1
    · obtain ⟨acc, xs, hrec⟩ := ht hacc.1
      have hfit := hrec.accepts_fits hacc d.2
      have hstaged := hrec.staged
      rw [App.base, hst] at hstaged
      obtain ⟨hperf, hacc'⟩ := writePages_accounted ok 0 d.1 hstaged
        (Nat.le_trans (Nat.add_le_add_right hrec.lost _) hfit) ⟨hp.once, hp.fresh hacc.1⟩
      rw [otaWrite_accepted hacc, App.wrote, hst]
      exact ⟨hperf, hacc'.once, fun _ => hacc'.fresh⟩
    · obtain ⟨r, -, he⟩ := otaWrite_rejected hacc ok
      rw [he]
      exact ⟨.refl, hp⟩

theorem finalize_footprint (hst : s.ota.status.stagingSlot = slot) (ht : Tracked s)
    (hp : Programmed slot s) (ok : Nat → Bool) : Proper slot s (otaFinalize ok s).1 := by
  cases hidle : s.ota.status.updateInProgress with
  | false => rw [otaFinalize_idle hidle]; exact ⟨.refl, hp⟩
  | true =>
    obtain ⟨acc, xs, hrec⟩ := ht hidle
    rcases hf : flushPage (ok 0) s.base s.pages with ⟨p, _ | _⟩
    · rw [otaFinalize_io hidle hf]; exact ⟨.refl, hp⟩
    · rw [otaFinalize_ok hidle hf]
      have hstaged := hrec.staged
      rw [App.base, hst] at hstaged hf
      unfold flushPage at hf
      by_cases hne : s.pages.page.bytes.length > 0
      · rw [if_pos hne] at hf
        cases hok : ok 0 with
        | false =>
          rw [hok, programPage_false] at hf
          exact absurd (congrArg Prod.snd hf) Bool.false_ne_true
        | true =>
          rw [hok, programPage_true] at hf
          obtain rfl := (congrArg Prod.fst hf).symm
          have hpage := hstaged.page_within hne s.pages.page.padded_length
          refine ⟨Performs.refl.program hpage, ?_, fun hin => absurd hin Bool.false_ne_true⟩
          exact hp.once.program fun a _ h2 h3 _ => hp.fresh hidle a h3 h2
      · rw [if_neg hne] at hf
        obtain rfl := congrArg Prod.fst hf
        exact ⟨.refl, hp.once, fun hin => absurd hin Bool.false_ne_true⟩

theorem abort_footprint (hp : Programmed slot s) : Proper slot s (otaAbort s).1 := by
  unfold otaAbort
  split
  · exact ⟨.refl, hp⟩
  · exact ⟨.refl, hp.once, fun hin => absurd hin Bool.false_ne_true⟩

/-- **One call** stays in the staging slot and programs a page once. -/
theorem run_footprint (hst : s.ota.status.stagingSlot = slot) (ht : Tracked s)
    (hp : Programmed slot s) (c : Call) : Proper slot s (c.run s).1 := by
  cases c with
  | begin n ok => exact begin_footprint hst hp n ok
  | write offset data ok => exact write_footprint hst ht hp offset data ok
  | finalize ok => exact finalize_footprint hst ht hp ok
  | abort => exact abort_footprint hp

end Call

/-! ## Every run of the board -/

/-- Runs from the bootloader, on any flash. -/
def boards : LTS Board Event :=
  LTS.ofFun (fun b => b.cpu = .bootloader ∧ b.flash.log = []) Board.step

/-- The application of `slot` has its staging slot in order. -/
structure Staging (slot : Slot) (s : App) : Prop where
  other : s.ota.status.stagingSlot = slot.other
  tracked : Tracked s
  fresh : s.ota.status.updateInProgress = true →
    Fresh (slot.other.offset + s.ota.nextPageOff) (slot.other.offset + otaSlotSize) s.flash.log

/-- What every event maintains. -/
structure Footed (b : Board) : Prop where
  once : ∀ slot : Slot, Once slot.offset (slot.offset + otaSlotSize) b.flash.log
  app : ∀ slot ota, b.cpu = .app slot ota → Staging slot ⟨b.flash, ota⟩

theorem slot_metadata (slot : Slot) : slot.offset + otaSlotSize ≤ otaMetadataOffset := by
  cases slot <;> simp only [Slot.offset, otaMetadataOffset, otaSlotBOffset] <;> omega

theorem slot_other (slot : Slot) :
    slot.offset + otaSlotSize ≤ slot.other.offset ∨
    slot.other.offset + otaSlotSize ≤ slot.offset := by
  cases slot <;> simp only [Slot.offset, Slot.other, otaSlotBOffset] <;> omega

/-- Work on the metadata sector leaves the slots' history alone. -/
theorem Performs.once_metadata {f g : Flash} (h : Performs InMetadata f g) (slot : Slot)
    (ho : Once slot.offset (slot.offset + otaSlotSize) f.log) :
    Once slot.offset (slot.offset + otaSlotSize) g.log :=
  h.once (.inl (slot_metadata slot)) ho

theorem footed_metadata {f g : Flash} {cpu : Cpu} (h : Performs InMetadata f g)
    (ho : ∀ slot : Slot, Once slot.offset (slot.offset + otaSlotSize) f.log)
    (hcpu : ∀ slot ota, cpu ≠ .app slot ota) : Footed ⟨g, cpu⟩ :=
  ⟨fun slot => h.once_metadata slot (ho slot), fun slot ota hc => absurd hc (hcpu slot ota)⟩

/-- So does an application that only touches its pending flag beside. -/
theorem Staging.metadata {slot : Slot} {f g : Flash} {ota : OtaState} {pending : Bool}
    {attempts : UInt8} (hs : Staging slot ⟨f, ota⟩) (h : Performs InMetadata f g) :
    Staging slot ⟨g, { ota with status := { ota.status with
      pendingVerify := pending, bootAttempts := attempts } }⟩ := by
  have hmeta := slot_metadata slot.other
  refine ⟨hs.other, hs.tracked.update fun i hi => ?_, fun hin a h1 h2 => ?_⟩
  · rw [App.base, hs.other]
    exact h.sameOutside _ (.inl (by omega))
  · rw [h.programsOf_eq (.inl (by omega))]
    exact hs.fresh hin a h1 h2

theorem otaApply_ota (slot : Slot) (ok : Nat → Bool) (s : App) :
    (otaApply slot ok s).1.ota = s.ota := by
  cases hr : s.ota.status.imageReady with
  | false => rw [otaApply_noImage hr]
  | true =>
    rcases otaApply_cases slot ok hr with ⟨he, -⟩ | ⟨f, he, -⟩ | ⟨f, he, -⟩ <;> rw [he]

theorem otaConfirm_ota (slot : Slot) (ok : Nat → Bool) (s : App) : ∃ pending attempts,
    (otaConfirm slot ok s).ota = { s.ota with status := { s.ota.status with
      pendingVerify := pending, bootAttempts := attempts } } := by
  by_cases hun : s.ota.status.Unconfirmed
  · rcases otaConfirm_cases slot ok hun with ⟨he, -⟩ | ⟨f, he, -⟩ | ⟨f, he, -⟩
    · exact ⟨_, _, by rw [he]⟩
    · exact ⟨_, _, by rw [he]⟩
    · exact ⟨_, _, by rw [he]; rfl⟩
  · exact ⟨_, _, by rw [otaConfirm_nothing hun]⟩

theorem footed_step {b b' : Board} {e : Event} (h : Footed b) (hs : b.step e = some b') :
    Footed b' := by
  rcases Board.step_cases hs with ⟨-, rfl⟩ | ⟨power, -, hc, rfl⟩ | ⟨ok, slot, -, hc, rfl⟩ |
    ⟨c, slot, ota, -, hc, rfl⟩ | ⟨ok, slot, ota, a, r, -, hc, ha, rfl⟩ |
    ⟨ok, slot, ota, a, -, hc, ha, rfl⟩ | ⟨ok, slot, ota, -, hc, rfl⟩
  · exact ⟨h.once, fun slot ota hc => absurd hc (by simp)⟩
  · refine footed_metadata (performs_main power b.flash) h.once fun slot ota => ?_
    cases (main power b.flash).2 <;> simp [Cpu.afterBoot]
  · -- `ota_init`: nothing is in progress
    have hperf := performs_otaInit slot ok ⟨b.flash, OtaState.zero⟩
    have hidle := otaInit_idle slot ok ⟨b.flash, OtaState.zero⟩
    refine ⟨fun s => hperf.once_metadata s (h.once s), fun s ota hc' => ?_⟩
    obtain ⟨rfl, rfl⟩ := Cpu.app.inj hc'
    refine ⟨?_, tracked_idle hidle.1, fun hin => absurd (hidle.1.symm.trans hin) Bool.false_ne_true⟩
    unfold otaInit
    dsimp only
    split <;> rfl
  · -- a transfer call
    have hst := h.app slot ota hc
    obtain ⟨hperf, hprog⟩ := run_footprint hst.other hst.tracked ⟨h.once _, hst.fresh⟩ c
    refine ⟨fun s => ?_, fun s ota' hc' => ?_⟩
    · rcases Slot.eq_or_other slot.other s with rfl | rfl
      · exact hprog.once
      · refine hperf.once ?_ (h.once _)
        rcases slot_other slot.other with hd | hd
        · exact .inr hd
        · exact .inl hd
    · obtain ⟨rfl, rfl⟩ := Cpu.app.inj hc'
      exact ⟨(run_stagingSlot c _).trans hst.other, tracked_step hst.tracked c, hprog.fresh⟩
  · have hperf := performs_otaApply slot ok ⟨b.flash, ota⟩
    have hota := otaApply_ota slot ok ⟨b.flash, ota⟩
    rw [ha] at hperf hota
    refine ⟨fun s => hperf.once_metadata s (h.once s), fun s ota' hc' => ?_⟩
    obtain ⟨rfl, rfl⟩ := Cpu.app.inj hc'
    rw [show a.ota = ota from hota]
    exact (h.app slot ota hc).metadata hperf
  · have hperf := performs_otaApply slot ok ⟨b.flash, ota⟩
    rw [ha] at hperf
    exact footed_metadata hperf h.once fun _ _ => by simp
  · have hperf := performs_otaConfirm slot ok ⟨b.flash, ota⟩
    obtain ⟨p, n, hota⟩ := otaConfirm_ota slot ok ⟨b.flash, ota⟩
    refine ⟨fun s => hperf.once_metadata s (h.once s), fun s ota' hc' => ?_⟩
    obtain ⟨rfl, rfl⟩ := Cpu.app.inj hc'
    rw [hota]
    exact (h.app slot ota hc).metadata hperf

theorem footed_reachable {b : Board} (h : boards.Reachable b) : Footed b := by
  refine h.inv ?_ ?_
  · rintro b ⟨hcpu, hlog⟩
    refine ⟨fun slot => ?_, fun slot ota hc => ?_⟩
    · rw [hlog]; exact once_nil _ _
    · rw [hcpu] at hc; exact absurd hc (by simp)
  · rintro b e b' hf - hs
    exact footed_step hf hs

/-! ## F3: everything else -/

/-- What no event of a board may change: an application keeps to the metadata
sector and the other slot, everybody else to the metadata sector. -/
def Protected (cpu : Cpu) (a : Nat) : Prop :=
  (a < otaMetadataOffset ∨ otaMetadataOffset + flashSectorSize ≤ a) ∧
  ∀ slot ota, cpu = .app slot ota →
    a < slot.other.offset ∨ slot.other.offset + otaSlotSize ≤ a

theorem step_protected {b b' : Board} {e : Event} (h : Footed b) (hs : b.step e = some b') {a : Nat}
    (ha : Protected b.cpu a) : b'.flash.image a = b.flash.image a := by
  rcases Board.step_cases hs with ⟨-, rfl⟩ | ⟨power, -, hc, rfl⟩ | ⟨ok, slot, -, hc, rfl⟩ |
    ⟨c, slot, ota, -, hc, rfl⟩ | ⟨ok, slot, ota, s, r, -, hc, hap, rfl⟩ |
    ⟨ok, slot, ota, s, -, hc, hap, rfl⟩ | ⟨ok, slot, ota, -, hc, rfl⟩
  · rfl
  · exact (performs_main power b.flash).sameOutside a ha.1
  · exact (performs_otaInit slot ok ⟨b.flash, OtaState.zero⟩).sameOutside a ha.1
  · have hst := h.app slot ota hc
    exact (run_footprint hst.other hst.tracked ⟨h.once _, hst.fresh⟩ c).1.sameOutside a
      (ha.2 slot ota hc)
  · have hperf := performs_otaApply slot ok ⟨b.flash, ota⟩
    rw [hap] at hperf
    exact hperf.sameOutside a ha.1
  · have hperf := performs_otaApply slot ok ⟨b.flash, ota⟩
    rw [hap] at hperf
    exact hperf.sameOutside a ha.1
  · exact (performs_otaConfirm slot ok ⟨b.flash, ota⟩).sameOutside a ha.1

/-- **The footprint of `ota.c`.** In every state the board can reach: `ota_init`,
`ota_apply` and `ota_confirm` work on the metadata sector, the calls of a
transfer on the staging slot, by aligned operations; no byte of a slot has been
programmed twice between erases; and whatever happens next leaves every slot but
the running application's staging slot, the bootloader and everything behind the
metadata sector as they are. -/
theorem flash_footprint {b : Board} (h : boards.Reachable b) :
    (∀ slot ok, b.cpu = .started slot →
      Performs InMetadata b.flash (otaInit slot ok ⟨b.flash, OtaState.zero⟩).flash) ∧
    (∀ slot ota, b.cpu = .app slot ota →
      (∀ c : Call, Performs (InSlot slot.other) b.flash (c.run ⟨b.flash, ota⟩).1.flash) ∧
      (∀ ok, Performs InMetadata b.flash (otaApply slot ok ⟨b.flash, ota⟩).1.flash) ∧
      (∀ ok, Performs InMetadata b.flash (otaConfirm slot ok ⟨b.flash, ota⟩).flash)) ∧
    (∀ (slot : Slot) log, log <:+ b.flash.log →
      ∀ a, slot.offset ≤ a → a < slot.offset + otaSlotSize → programsOf a log ≤ 1) ∧
    (∀ e b', b.step e = some b' →
      (∀ slot : Slot, (∀ ota, b.cpu ≠ .app slot.other ota) →
        SameSlot slot b.flash.image b'.flash.image) ∧
      ∀ a, a < otaSlotAOffset ∨ otaMetadataOffset + flashSectorSize ≤ a →
        b'.flash.image a = b.flash.image a) := by
  have hf := footed_reachable h
  refine ⟨fun slot ok _ => performs_otaInit slot ok ⟨b.flash, OtaState.zero⟩,
    fun slot ota hc => ?_, hf.once, fun e b' hs => ⟨fun slot hc i hi => ?_, fun a ha => ?_⟩⟩
  · have hst := hf.app slot ota hc
    exact ⟨fun c => (run_footprint hst.other hst.tracked ⟨hf.once _, hst.fresh⟩ c).1,
      fun ok => performs_otaApply slot ok ⟨b.flash, ota⟩,
      fun ok => performs_otaConfirm slot ok ⟨b.flash, ota⟩⟩
  · -- a slot that is nobody's staging slot
    have hmeta := slot_metadata slot
    refine step_protected hf hs ⟨.inl (by omega), fun s ota hc' => ?_⟩
    rcases Slot.eq_or_other s slot with rfl | rfl
    · rcases slot_other slot with hd | hd
      · exact .inl (by omega)
      · exact .inr (by omega)
    · rw [Slot.other_other] at hc
      exact absurd hc' (hc ota)
  · -- in front of the slots, and behind the metadata sector
    have hA : otaSlotAOffset ≤ Slot.a.offset := Nat.le_refl _
    have hB : otaSlotAOffset ≤ Slot.b.offset := Nat.le_add_right _ _
    have hmeta : otaSlotAOffset ≤ otaMetadataOffset := by decide
    refine step_protected hf hs ⟨?_, fun slot ota _ => ?_⟩
    · rcases ha with ha | ha
      · exact .inl (by omega)
      · exact .inr ha
    · have hend := slot_metadata slot.other
      have hstart : otaSlotAOffset ≤ slot.other.offset := by cases slot <;> assumption
      rcases ha with ha | ha
      · exact .inl (by omega)
      · exact .inr (by omega)

/-- The application that has just been applied in slot B: all it can do is
rewrite slot A and the metadata sector. -/
theorem appliedBoard_footprint : ∃ b ota, boards.Reachable b ∧ b.cpu = .app .b ota ∧
    (∀ c : Call, Performs (InSlot .a) b.flash (c.run ⟨b.flash, ota⟩).1.flash) ∧
    ∀ (slot : Slot) log, log <:+ b.flash.log →
      ∀ a, slot.offset ≤ a → a < slot.offset + otaSlotSize → programsOf a log ≤ 1 := by
  obtain ⟨m, hr, ha, hp, hn⟩ := appliedBoard_applied.record
  obtain ⟨f, he, -⟩ := boot_attempt (t := .b) hr ha (by rw [hp]; decide) (by rw [hn]; decide)
    (appliedBoard_applied.valid .b)
  have hboot : boards.Reachable ⟨f, .started .b⟩ := by
    refine LTS.Reachable.tail (s := appliedBoard) (a := .boot allOk) (.init ⟨rfl, rfl⟩) ?_
    show some (Board.mk (main allOk appliedBoard.flash).1
      (.afterBoot (main allOk appliedBoard.flash).2)) = _
    rw [he]
    rfl
  have hinit : boards.Reachable ⟨(otaInit .b allOk ⟨f, OtaState.zero⟩).flash,
      .app .b (otaInit .b allOk ⟨f, OtaState.zero⟩).ota⟩ :=
    hboot.tail (a := .init allOk) rfl
  obtain ⟨-, happ, honce, -⟩ := flash_footprint hinit
  exact ⟨_, _, hinit, rfl, (happ .b _ rfl).1, honce⟩

end PicoBLE.Ota
