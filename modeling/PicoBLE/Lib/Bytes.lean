import Mathlib.Algebra.Ring.Nat
import Mathlib.Data.List.GetD
import Mathlib.Tactic.Common

/-!
# Little-endian bytes and fixed fields

Numbers as little-endian byte strings, and reading a field out of a record by
offset and length. A record is a concatenation of its fields, so reading one
back is a matter of lengths.
-/

namespace Bytes

/-- The `n` little-endian bytes of a number. -/
def leBytes : Nat → Nat → List UInt8
  | 0, _ => []
  | n + 1, v => UInt8.ofNat v :: leBytes n (v / 256)

/-- The little-endian value of a byte string. -/
def leNat : List UInt8 → Nat
  | [] => 0
  | b :: bs => b.toNat + 256 * leNat bs

@[simp] theorem leBytes_length (n v : Nat) : (leBytes n v).length = n := by
  induction n generalizing v with
  | zero => rfl
  | succ n ih => simp [leBytes, ih]

theorem leNat_leBytes (n v : Nat) : leNat (leBytes n v) = v % 256 ^ n := by
  induction n generalizing v with
  | zero => simp [leBytes, leNat, Nat.mod_one]
  | succ n ih =>
    rw [leBytes, leNat, ih, UInt8.toNat_ofNat',
      show 256 ^ (n + 1) = 256 * 256 ^ n from Nat.pow_succ']
    exact Nat.mod_mul.symm

/-- A 32-bit word survives its bytes. -/
theorem ofNat_leBytes32 (x : UInt32) : UInt32.ofNat (leNat (leBytes 4 x.toNat)) = x := by
  have hx : x.toNat < 256 ^ 4 := x.toNat_lt
  rw [leNat_leBytes, Nat.mod_eq_of_lt hx, UInt32.ofNat_toNat]

/-- A 16-bit word survives its bytes. -/
theorem ofNat_leBytes16 (x : UInt16) : UInt16.ofNat (leNat (leBytes 2 x.toNat)) = x := by
  have hx : x.toNat < 256 ^ 2 := x.toNat_lt
  rw [leNat_leBytes, Nat.mod_eq_of_lt hx, UInt16.ofNat_toNat]

/-- And bytes survive their number. -/
theorem leBytes_leNat (bs : List UInt8) : leBytes bs.length (leNat bs) = bs := by
  induction bs with
  | nil => rfl
  | cons b bs ih =>
    have hb := b.toNat_lt
    have hlow : UInt8.ofNat (b.toNat + 256 * leNat bs) = b := by
      refine UInt8.toNat_inj.mp ?_
      rw [UInt8.toNat_ofNat']
      omega
    have hhigh : (b.toNat + 256 * leNat bs) / 256 = leNat bs := by omega
    rw [List.length_cons, leBytes, leNat, hlow, hhigh, ih]

theorem leNat_lt (bs : List UInt8) : leNat bs < 256 ^ bs.length := by
  induction bs with
  | nil => exact Nat.one_pos
  | cons b bs ih =>
    have hb := b.toNat_lt
    rw [List.length_cons, Nat.pow_succ, leNat]
    omega

theorem leBytes_ofNat32 {bs : List UInt8} (h : bs.length = 4) :
    leBytes 4 (UInt32.ofNat (leNat bs)).toNat = bs := by
  have hlt : leNat bs < 2 ^ 32 := by
    have hlt := leNat_lt bs
    rwa [h] at hlt
  rw [UInt32.toNat_ofNat', Nat.mod_eq_of_lt hlt, ← h, leBytes_leNat]

theorem leBytes_ofNat16 {bs : List UInt8} (h : bs.length = 2) :
    leBytes 2 (UInt16.ofNat (leNat bs)).toNat = bs := by
  have hlt : leNat bs < 2 ^ 16 := by
    have hlt := leNat_lt bs
    rwa [h] at hlt
  rw [UInt16.toNat_ofNat', Nat.mod_eq_of_lt hlt, ← h, leBytes_leNat]

/-! ## Fields -/

/-- The `n` bytes at offset `off`. -/
def field (off n : Nat) (bs : List UInt8) : List UInt8 := (bs.drop off).take n

theorem field_length {off n : Nat} {bs : List UInt8} (h : off + n ≤ bs.length) :
    (field off n bs).length = n := by
  rw [field, List.length_take, List.length_drop]; omega

/-- A field further on is found after skipping what stands before it. -/
theorem field_skip {off n k : Nat} {xs ys : List UInt8} (h : xs.length = k) (ho : k ≤ off) :
    field off n (xs ++ ys) = field (off - k) n ys := by
  rw [field, field, List.drop_append, List.drop_of_length_le (by omega), List.nil_append, h]

/-- The field a record starts with. -/
theorem field_here {n : Nat} {xs ys : List UInt8} (h : xs.length = n) :
    field 0 n (xs ++ ys) = xs := by
  rw [field, List.drop_zero, List.take_left' h]

theorem field_last {n : Nat} {xs : List UInt8} (h : xs.length = n) : field 0 n xs = xs := by
  rw [field, List.drop_zero, List.take_of_length_le (by omega)]

/-- Two fields, one right behind the other. -/
theorem field_append (off m n : Nat) (bs : List UInt8) :
    field off m bs ++ field (off + m) n bs = field off (m + n) bs := by
  rw [field, field, field, List.take_add, List.drop_drop]

/-- The entries of an array, one behind the other. -/
theorem flatMap_field (off k : Nat) (bs : List UInt8) (n : Nat) :
    ((List.finRange n).flatMap fun i => field (off + i.1 * k) k bs) = field off (n * k) bs := by
  induction n generalizing off with
  | zero => rw [Nat.zero_mul]; rfl
  | succ n ih =>
    have hshift : ∀ i : Fin n, off + i.succ.1 * k = off + k + i.1 * k := by
      intro i
      rw [Fin.val_succ, Nat.succ_mul]
      omega
    rw [List.finRange_succ, List.flatMap_cons, List.flatMap_map]
    simp only [hshift]
    rw [ih, Fin.val_zero, Nat.zero_mul, Nat.add_zero, field_append, Nat.succ_mul, Nat.add_comm k]

theorem flatMap_length {α : Type} {f : α → List UInt8} {n : Nat}
    (hf : ∀ a, (f a).length = n) (l : List α) :
    (l.flatMap f).length = l.length * n := by
  induction l with
  | nil => simp
  | cons a l ih =>
    rw [List.flatMap_cons, List.length_append, ih, hf, List.length_cons, Nat.succ_mul]
    omega

/-- An entry of an array of entries of one size. -/
theorem field_flatMap {α : Type} {f : α → List UInt8} {n : Nat} (hf : ∀ a, (f a).length = n)
    {l : List α} {k : Nat} (hk : k < l.length) (rest : List UInt8) :
    field (k * n) n (l.flatMap f ++ rest) = f l[k] := by
  induction l generalizing k with
  | nil => exact absurd hk (Nat.not_lt_zero k)
  | cons a l ih =>
    rw [List.flatMap_cons, List.append_assoc]
    cases k with
    | zero =>
      rw [Nat.zero_mul]
      exact field_here (hf a)
    | succ k =>
      rw [Nat.succ_mul, field_skip (hf a) (Nat.le_add_left n _), Nat.add_sub_cancel]
      exact ih (Nat.lt_of_succ_lt_succ hk)

end Bytes
