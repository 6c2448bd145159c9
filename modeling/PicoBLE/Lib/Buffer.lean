import PicoBLE.Lib.CString

/-!
# Character arrays

A `char` array of fixed size, the two ways to write to it, and the C string
that starts at an index of it. What is written past the end is dropped, so a
caller that writes there shows in the indices it uses and not in the array.
-/

/-- An array of `n` bytes. -/
structure Buffer (n : Nat) where
  bytes : List UInt8
  size : bytes.length = n
deriving DecidableEq

namespace Buffer

variable {n : Nat}

/-- All zero. -/
def zero (n : Nat) : Buffer n := ⟨List.replicate n 0, List.length_replicate⟩

/-- `buf[i]`. -/
def get (b : Buffer n) (i : Nat) : UInt8 := b.bytes.getD i 0

/-- `buf[i] = c`. -/
def set (b : Buffer n) (i : Nat) (c : UInt8) : Buffer n :=
  ⟨b.bytes.set i c, by rw [List.length_set, b.size]⟩

/-- `memcpy(&buf[off], bs, len)`. -/
def write (b : Buffer n) (off : Nat) (bs : List UInt8) : Buffer n :=
  ⟨(b.bytes.take off ++ (bs ++ b.bytes.drop (off + bs.length))).take n, by
    have h := b.size
    rw [List.length_take, List.length_append, List.length_append, List.length_take,
      List.length_drop]
    omega⟩

/-- The string that starts at `off`. -/
def str (b : Buffer n) (off : Nat) : List UInt8 := CString.ofBuffer (b.bytes.drop off)

/-- The array that a string is copied into, its NUL and what follows zero. -/
def ofString (n : Nat) (s : List UInt8) : Buffer n := (zero n).write 0 s

@[ext] theorem ext {b c : Buffer n} (h : b.bytes = c.bytes) : b = c := by
  cases b
  cases c
  subst h
  rfl

/-- A NUL ends the string, whatever stands behind it. -/
theorem ofBuffer_take {l : List UInt8} {n : Nat} (h : l.getD n 0 = 0) :
    CString.ofBuffer (l.take (n + 1)) = CString.ofBuffer l := by
  induction l generalizing n with
  | nil => rfl
  | cons x l ih =>
    unfold CString.ofBuffer
    rw [List.take_succ_cons, List.takeWhile_cons, List.takeWhile_cons]
    cases n with
    | zero =>
      -- the NUL is here
      have hx : x = 0 := by simpa using h
      rw [if_neg (by simp [hx]), if_neg (by simp [hx])]
    | succ n =>
      split
      · exact congrArg (x :: ·) (ih (by simpa using h))
      · rfl

/-! ## What a write leaves alone -/

theorem set_drop {b : Buffer n} {i p : Nat} (c : UInt8) (h : i < p) :
    (b.set i c).bytes.drop p = b.bytes.drop p := List.drop_set_of_lt h

theorem set_take {b : Buffer n} {i p : Nat} (c : UInt8) (h : p ≤ i) :
    (b.set i c).bytes.take p = b.bytes.take p := List.take_set_of_le h

/-- A write that fits. -/
theorem write_bytes {b : Buffer n} {off : Nat} {bs : List UInt8} (hfit : off + bs.length ≤ n) :
    (b.write off bs).bytes = b.bytes.take off ++ (bs ++ b.bytes.drop (off + bs.length)) := by
  have hsize := b.size
  refine List.take_of_length_le ?_
  rw [List.length_append, List.length_append, List.length_take, List.length_drop]
  omega

theorem take_length {b : Buffer n} {off : Nat} (h : off ≤ n) : (b.bytes.take off).length = off := by
  rw [List.length_take, b.size]
  omega

theorem write_drop {b : Buffer n} {off p : Nat} {bs : List UInt8} (h : off + bs.length ≤ p)
    (hfit : off + bs.length ≤ n) : (b.write off bs).bytes.drop p = b.bytes.drop p := by
  have htake : (b.bytes.take off).length = off := take_length (by omega)
  rw [write_bytes hfit, List.drop_append, List.drop_of_length_le (by omega), List.nil_append,
    List.drop_append, List.drop_of_length_le (by omega), List.nil_append, List.drop_drop]
  congr 1
  omega

theorem write_take {b : Buffer n} {off : Nat} {bs : List UInt8} (hfit : off + bs.length ≤ n) :
    (b.write off bs).bytes.take (off + bs.length) = b.bytes.take off ++ bs := by
  have htake : (b.bytes.take off).length = off := take_length (by omega)
  rw [write_bytes hfit, ← List.append_assoc, List.take_left']
  rw [List.length_append, htake]

/-- A string that is shorter than the array has a NUL behind it. -/
theorem ofString_bytes {s : List UInt8} (h : s.length < n) :
    (ofString n s).bytes = s ++ 0 :: List.replicate (n - s.length - 1) 0 := by
  have hzeros : (zero n).bytes.drop (0 + s.length) = 0 :: List.replicate (n - s.length - 1) 0 := by
    show (List.replicate n (0 : UInt8)).drop (0 + s.length) = _
    rw [List.drop_replicate, ← List.replicate_succ]
    congr 1
    omega
  rw [ofString, write_bytes (by omega), List.take_zero, List.nil_append, hzeros]

/-- A string is not touched by a byte in front of it. -/
theorem str_set_below {b : Buffer n} {i p : Nat} (c : UInt8) (h : i < p) :
    (b.set i c).str p = b.str p := by
  rw [str, str, set_drop c h]

/-- Nor by one behind its NUL. -/
theorem str_set_above {b : Buffer n} {i p : Nat} (c : UInt8) (h : p + (b.str p).length < i) :
    (b.set i c).str p = b.str p := by
  have hskip : ∀ (l : List UInt8) (k : Nat), (CString.ofBuffer l).length < k →
      CString.ofBuffer (l.set k c) = CString.ofBuffer l := by
    intro l
    induction l with
    | nil => intro k _; rfl
    | cons x l ih =>
      intro k hk
      cases k with
      | zero => exact absurd hk (Nat.not_lt_zero _)
      | succ k =>
        rw [List.set_cons_succ]
        unfold CString.ofBuffer at hk ⊢
        rw [List.takeWhile_cons, List.takeWhile_cons]
        rw [List.takeWhile_cons] at hk
        split at hk
        · next hx =>
          rw [if_pos hx, if_pos hx]
          exact congrArg (x :: ·) (ih k (Nat.lt_of_succ_lt_succ hk))
        · next hx => rw [if_neg hx, if_neg hx]
  have hdrop : (b.set i c).bytes.drop p = (b.bytes.drop p).set (i - p) c := by
    show (b.bytes.set i c).drop p = _
    rw [List.drop_set, if_neg (by omega)]
  rw [str, hdrop]
  exact hskip _ _ (by rw [str] at h; omega)

/-- A NUL within a string cuts it. -/
theorem ofBuffer_set {l : List UInt8} {i : Nat} (h : i < (CString.ofBuffer l).length) :
    CString.ofBuffer (l.set i 0) = (CString.ofBuffer l).take i := by
  induction l generalizing i with
  | nil => exact absurd h (Nat.not_lt_zero i)
  | cons x l ih =>
    unfold CString.ofBuffer at h ⊢
    rw [List.takeWhile_cons] at h
    split at h
    · next hx =>
      cases i with
      | zero => simp
      | succ i =>
        rw [List.set_cons_succ, List.takeWhile_cons, if_pos hx, List.takeWhile_cons, if_pos hx,
          List.take_succ_cons]
        exact congrArg (x :: ·) (ih (Nat.lt_of_succ_lt_succ h))
    · exact absurd h (Nat.not_lt_zero i)

/-- A string goes on behind any of its characters. -/
theorem ofBuffer_drop {l : List UInt8} {i : Nat} (h : i ≤ (CString.ofBuffer l).length) :
    CString.ofBuffer (l.drop i) = (CString.ofBuffer l).drop i := by
  induction l generalizing i with
  | nil => simp [CString.ofBuffer]
  | cons x l ih =>
    cases i with
    | zero => rfl
    | succ i =>
      unfold CString.ofBuffer at h ⊢
      rw [List.takeWhile_cons] at h ⊢
      split at h
      · next hx =>
        rw [if_pos hx, List.drop_succ_cons, List.drop_succ_cons]
        exact ih (Nat.le_of_succ_le_succ h)
      · exact absurd h (Nat.not_succ_le_zero i)

/-- A NUL within a string leaves two. -/
theorem str_split {b : Buffer n} {p i : Nat} (h : i < (b.str p).length) :
    (b.set (p + i) 0).str p = (b.str p).take i ∧
    (b.set (p + i) 0).str (p + i + 1) = (b.str p).drop (i + 1) := by
  have hdrop : (b.set (p + i) 0).bytes.drop p = (b.bytes.drop p).set i 0 := by
    show (b.bytes.set (p + i) 0).drop p = _
    rw [List.drop_set, if_neg (by omega), Nat.add_sub_cancel_left]
  constructor
  · rw [str, hdrop, ofBuffer_set h]
    rfl
  · have hbehind : b.bytes.drop (p + i + 1) = (b.bytes.drop p).drop (i + 1) := by
      rw [List.drop_drop, Nat.add_assoc]
    rw [str_set_below 0 (Nat.lt_succ_self (p + i)), str, hbehind, ofBuffer_drop h]
    rfl

end Buffer
