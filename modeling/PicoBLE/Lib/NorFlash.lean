import Mathlib.Data.List.GetD
import Mathlib.Tactic.Common

/-!
# NOR flash

A flash image is a byte at every offset. Two operations change it: erasing a
range sets every byte of it to `0xFF`, and programming a range can only clear
bits, so a byte ends up as the conjunction of what was there and what was
asked for. Only on erased cells does programming store what it was given.

Everything here is about *where* bytes go: a frame lemma for each operation,
what a read sees after it, and reading a range that was just written.
-/

namespace NorFlash

/-- The byte at every offset. -/
abbrev Image := Nat → UInt8

/-- Erase `len` bytes from `off`. -/
def erase (off len : Nat) (f : Image) : Image :=
  fun a => if off ≤ a ∧ a < off + len then 0xFF else f a

/-- Program `bs` from `off`: bits go from one to zero, never back. -/
def program (off : Nat) (bs : List UInt8) (f : Image) : Image :=
  fun a => if off ≤ a ∧ a < off + bs.length then f a &&& bs.getD (a - off) 0xFF else f a

/-- The `len` bytes from `off`. -/
def read (off len : Nat) (f : Image) : List UInt8 :=
  (List.range len).map fun i => f (off + i)

/-- Every byte of the range is erased. -/
def Blank (off len : Nat) (f : Image) : Prop :=
  ∀ i, i < len → f (off + i) = 0xFF

/-! ## Frames -/

theorem erase_outside {off len a : Nat} {f : Image} (h : a < off ∨ off + len ≤ a) :
    erase off len f a = f a := by
  unfold erase; rw [if_neg (by omega)]

theorem program_outside {off a : Nat} {bs : List UInt8} {f : Image}
    (h : a < off ∨ off + bs.length ≤ a) : program off bs f a = f a := by
  unfold program; rw [if_neg (by omega)]

theorem erase_inside {off len a : Nat} {f : Image} (h1 : off ≤ a) (h2 : a < off + len) :
    erase off len f a = 0xFF := by
  unfold erase; rw [if_pos ⟨h1, h2⟩]

private theorem ff_and (x : UInt8) : 0xFF &&& x = x := by
  have h : (0xFF : UInt8) = -1 := rfl
  rw [h, UInt8.neg_one_and]

/-- On erased cells, programming stores what it was given. -/
theorem program_blank {off i : Nat} {bs : List UInt8} {f : Image}
    (hi : i < bs.length) (hb : f (off + i) = 0xFF) :
    program off bs f (off + i) = bs.getD i 0xFF := by
  unfold program
  rw [if_pos (by omega), hb, ff_and, Nat.add_sub_cancel_left]

theorem erase_blank (off len : Nat) (f : Image) : Blank off len (erase off len f) :=
  fun _ hi => erase_inside (Nat.le_add_right _ _) (Nat.add_lt_add_left hi _)

/-- The two images agree outside a range. -/
def SameOutside (off len : Nat) (f g : Image) : Prop :=
  ∀ a, a < off ∨ off + len ≤ a → g a = f a

theorem SameOutside.refl (off len : Nat) (f : Image) : SameOutside off len f f := fun _ _ => rfl

theorem SameOutside.trans {off len : Nat} {f g h : Image} (h1 : SameOutside off len f g)
    (h2 : SameOutside off len g h) : SameOutside off len f h :=
  fun a ha => (h2 a ha).trans (h1 a ha)

/-- An operation inside a range leaves the outside alone. -/
theorem erase_sameOutside {off len o l : Nat} (f : Image) (h1 : off ≤ o) (h2 : o + l ≤ off + len) :
    SameOutside off len f (erase o l f) :=
  fun _ _ => erase_outside (by omega)

theorem program_sameOutside {off len o : Nat} {bs : List UInt8} (f : Image)
    (h1 : off ≤ o) (h2 : o + bs.length ≤ off + len) : SameOutside off len f (program o bs f) :=
  fun _ _ => program_outside (by omega)

/-! ## Reading -/

@[simp] theorem read_length (off len : Nat) (f : Image) : (read off len f).length = len := by
  simp [read]

theorem read_getD {off len i : Nat} {f : Image} {d : UInt8} (h : i < len) :
    (read off len f).getD i d = f (off + i) := by
  simp [read, List.getD_eq_getElem?_getD, h]

theorem read_congr {off len : Nat} {f g : Image} (h : ∀ i, i < len → f (off + i) = g (off + i)) :
    read off len f = read off len g := by
  unfold read
  refine List.map_congr_left fun i hi => h i (List.mem_range.mp hi)

theorem read_append (off m n : Nat) (f : Image) :
    read off (m + n) f = read off m f ++ read (off + m) n f := by
  unfold read
  rw [List.range_add, List.map_append, List.map_map]
  simp [Function.comp_def, Nat.add_assoc]

/-- A range reads as `bs` once every byte of it does. -/
theorem read_eq_of_getD {off : Nat} {bs : List UInt8} {f : Image} {d : UInt8}
    (h : ∀ i, i < bs.length → f (off + i) = bs.getD i d) : read off bs.length f = bs := by
  refine List.ext_getElem (by simp) fun i h1 h2 => ?_
  have := h i h2
  simp only [read, List.getElem_map, List.getElem_range]
  rw [this, List.getD_eq_getElem _ _ h2]

theorem read_take {off len n : Nat} {f : Image} (h : n ≤ len) :
    (read off len f).take n = read off n f := by
  obtain ⟨k, rfl⟩ := Nat.exists_eq_add_of_le h
  rw [read_append, List.take_left' (by simp)]

/-- What reads the same reads the same in every part. -/
theorem read_part {off len o l : Nat} {f g : Image} (h : read off len g = read off len f)
    (h1 : off ≤ o) (h2 : o + l ≤ off + len) : read o l g = read o l f := by
  refine read_congr fun i hi => ?_
  have hbyte : ∀ img : Image, (read off len img).getD (o + i - off) 0 = img (o + i) := by
    intro img
    rw [read_getD (by omega), Nat.add_sub_cancel' (by omega)]
  rw [← hbyte g, ← hbyte f, h]

/-- A range disjoint from the changes reads the same. -/
theorem SameOutside.read_eq {off len o l : Nat} {f g : Image} (h : SameOutside off len f g)
    (hd : o + l ≤ off ∨ off + len ≤ o) : read o l g = read o l f :=
  read_congr fun _ _ => h _ (by omega)

/-- Programming elsewhere does not change what a range reads as. -/
theorem read_program_disjoint {off len o : Nat} {bs : List UInt8} {f : Image}
    (h : off + len ≤ o ∨ o + bs.length ≤ off) :
    read off len (program o bs f) = read off len f :=
  read_congr fun _ _ => program_outside (by omega)

/-- Programming erased cells and reading them back gives what was programmed. -/
theorem read_program_blank {off : Nat} {bs : List UInt8} {f : Image}
    (hb : Blank off bs.length f) : read off bs.length (program off bs f) = bs :=
  read_eq_of_getD fun i hi => program_blank hi (hb i hi)

theorem read_blank {off len : Nat} {f : Image} (hb : Blank off len f) :
    read off len f = List.replicate len 0xFF := by
  refine List.ext_getElem (by simp) fun i h1 h2 => ?_
  simp only [read, List.getElem_map, List.getElem_range, List.getElem_replicate]
  exact hb i (by simpa using h1)

/-- A blank range stays blank under operations elsewhere. -/
theorem Blank.mono {off len o l : Nat} {f : Image} (h : Blank off len f)
    (h1 : off ≤ o) (h2 : o + l ≤ off + len) : Blank o l f := by
  intro i hi
  have := h (o + i - off) (by omega)
  rwa [show off + (o + i - off) = o + i by omega] at this

theorem Blank.congr {off len : Nat} {f g : Image} (h : Blank off len f)
    (hfg : ∀ i, i < len → g (off + i) = f (off + i)) : Blank off len g :=
  fun i hi => (hfg i hi).trans (h i hi)

end NorFlash
