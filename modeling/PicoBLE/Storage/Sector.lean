import PicoBLE.Ota.Flash

/-!
# One record, one sector

The script store, the bindings and the configuration each keep a record in a
sector of its own and replace it the same way: erase the sector, then program
the new record. There is no second copy, so what is in the sector between the
two operations is nothing.
-/

namespace PicoBLE.Storage

open NorFlash
open PicoBLE.Ota (Flash flashSectorSize eraseRange programPage)

/-- A field of `n` bytes. -/
abbrev Block (n : Nat) := { bs : List UInt8 // bs.length = n }

/-- Erase a sector and program it, given how the two operations end. -/
def rewriteSector (ok : Nat → Bool) (off : Nat) (data : List UInt8) (f : Flash) : Flash × Bool :=
  match eraseRange (ok 0) off flashSectorSize f with
  | (f, false) => (f, false)
  | (f, true) => programPage (ok 1) off data f

/-- **What rewriting a sector can leave**: the old record, an erased sector, or the
new record. Only the last is reported as a success. -/
theorem rewriteSector_cases (ok : Nat → Bool) (off : Nat) (data : List UInt8) (f : Flash) :
    (ok 0 = false ∧ rewriteSector ok off data f = (f, false)) ∨
    (ok 0 = true ∧ ok 1 = false ∧ ∃ f', rewriteSector ok off data f = (f', false) ∧
      f'.image = erase off flashSectorSize f.image) ∨
    (ok 0 = true ∧ ok 1 = true ∧ ∃ f', rewriteSector ok off data f = (f', true) ∧
      f'.image = program off data (erase off flashSectorSize f.image)) := by
  unfold rewriteSector
  cases h0 : ok 0 with
  | false => exact .inl ⟨rfl, rfl⟩
  | true =>
    cases h1 : ok 1 with
    | false => exact .inr (.inl ⟨rfl, rfl, _, rfl, rfl⟩)
    | true => exact .inr (.inr ⟨rfl, rfl, _, rfl, rfl⟩)

/-- Whatever happens, it happens in the sector. -/
theorem rewriteSector_sameOutside (ok : Nat → Bool) {off : Nat} {data : List UInt8} (f : Flash)
    (h : data.length ≤ flashSectorSize) :
    SameOutside off flashSectorSize f.image (rewriteSector ok off data f).1.image := by
  have herase : SameOutside off flashSectorSize f.image (erase off flashSectorSize f.image) :=
    erase_sameOutside _ (Nat.le_refl _) (Nat.le_refl _)
  rcases rewriteSector_cases ok off data f with
    ⟨-, he⟩ | ⟨-, -, f', he, himg⟩ | ⟨-, -, f', he, himg⟩
  · rw [he]
    exact SameOutside.refl _ _ _
  · rw [he]
    dsimp only
    rw [himg]
    exact herase
  · rw [he]
    dsimp only
    rw [himg]
    exact herase.trans (program_sameOutside _ (Nat.le_refl _) (Nat.add_le_add_left h _))

/-- A new record reads as it was given. -/
theorem rewriteSector_read {ok : Nat → Bool} {off : Nat} {data : List UInt8} {f : Flash}
    (h : (rewriteSector ok off data f).2 = true) (hlen : data.length ≤ flashSectorSize) :
    read off data.length (rewriteSector ok off data f).1.image = data := by
  rcases rewriteSector_cases ok off data f with
    ⟨-, he⟩ | ⟨-, -, f', he, -⟩ | ⟨-, -, f', he, himg⟩
  · rw [he] at h
    exact absurd h Bool.false_ne_true
  · rw [he] at h
    exact absurd h Bool.false_ne_true
  · rw [he]
    dsimp only
    rw [himg]
    exact read_program_blank ((erase_blank _ _ _).mono (Nat.le_refl _) (Nat.add_le_add_left hlen _))

/-- And so does the front of it, as long as the sector is left alone. -/
theorem rewriteSector_front {ok : Nat → Bool} {off : Nat} {data : List UInt8} {f : Flash}
    (h : (rewriteSector ok off data f).2 = true) (hlen : data.length ≤ flashSectorSize) {g : Image}
    (hsame : read off flashSectorSize g = read off flashSectorSize
      (rewriteSector ok off data f).1.image) {n : Nat}
    (hn : n ≤ data.length) : read off n g = data.take n := by
  have hn' : n ≤ flashSectorSize := Nat.le_trans hn hlen
  rw [← read_take hn', hsame, read_take hn', ← read_take hn, rewriteSector_read h hlen]

end PicoBLE.Storage
