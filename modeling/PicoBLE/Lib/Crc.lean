import Mathlib.Data.List.GetD
import Mathlib.Logic.Function.Iterate
import Mathlib.Tactic.Common

/-!
# Cyclic redundancy checks

A register of `w` bits moves down one place for each bit of the message, and
the polynomial is added when what falls out, with the message's bit added to
it, is a one.

* **R1.** The top bit of a register that has just moved tells whether the
  polynomial was added, if its own top bit is set. So a move can be undone.
* **R2.** Up to `w` bits of the message may as well be added to the register
  all at once, each in the place from which it gets to the bottom in time.

Two messages of one length that differ within `w` bits leave different
registers: before these bits the registers are the same, by R2 they are
different after them, and by R1 they stay so.
-/

namespace Crc

variable {w : Nat} {poly r r' : BitVec w}

/-- One move. -/
def shift (poly r : BitVec w) : BitVec w := (r >>> 1) ^^^ (if r.getLsbD 0 then poly else 0)

/-- A bit, in the bottom place. -/
def lowBit (w : Nat) (b : Bool) : BitVec w := (BitVec.ofBool b).setWidth w

/-- One bit of the message. -/
def feed (poly r : BitVec w) (b : Bool) : BitVec w := shift poly (r ^^^ lowBit w b)

/-- A message. -/
def feedAll (poly r : BitVec w) (bs : List Bool) : BitVec w := bs.foldl (feed poly) r

/-- A message, the first bit in the bottom place. -/
def ofBits (w : Nat) : List Bool → BitVec w
  | [] => 0
  | b :: bs => (ofBits w bs <<< 1) ^^^ lowBit w b

/-! ## R1 -/

theorem shift_msb : (shift poly r).msb = (r.getLsbD 0 && poly.msb) := by
  have hdown : (r >>> 1).msb = false := by
    rw [BitVec.msb_ushiftRight]
    rfl
  rw [shift, BitVec.msb_xor, hdown, Bool.false_xor]
  cases r.getLsbD 0 with
  | false => exact BitVec.msb_zero
  | true => rfl

/-- **A move can be undone.** -/
theorem shift_injective (hpoly : poly.msb = true) : Function.Injective (shift poly) := by
  intro r r' h
  have hlow : r.getLsbD 0 = r'.getLsbD 0 := by
    have hmsb := congrArg BitVec.msb h
    rwa [shift_msb, shift_msb, hpoly, Bool.and_true, Bool.and_true] at hmsb
  have hdown : r >>> 1 = r' >>> 1 := by
    unfold shift at h
    rw [hlow] at h
    exact BitVec.xor_left_inj _ |>.mp h
  refine BitVec.eq_of_getLsbD_eq fun i hi => ?_
  cases i with
  | zero => exact hlow
  | succ i =>
    have hbit := congrArg (fun x => x.getLsbD i) hdown
    simpa only [BitVec.getLsbD_ushiftRight, Nat.add_comm 1 i] using hbit

theorem feedAll_injective (hpoly : poly.msb = true) (bs : List Bool)
    (h : feedAll poly r bs = feedAll poly r' bs) : r = r' := by
  induction bs generalizing r r' with
  | nil => exact h
  | cons b bs ih => exact BitVec.xor_left_inj _ |>.mp (shift_injective hpoly (ih h))

/-! ## R2 -/

@[simp] theorem getLsbD_lowBit (b : Bool) (i : Nat) :
    (lowBit w b).getLsbD i = (decide (i < w) && (decide (i = 0) && b)) := by
  rw [lowBit, BitVec.getLsbD_setWidth, BitVec.getLsbD_ofBool]

/-- Each bit has its place, while there are places. -/
theorem getLsbD_ofBits (bs : List Bool) (i : Nat) :
    (ofBits w bs).getLsbD i = (decide (i < w) && bs.getD i false) := by
  induction bs generalizing i with
  | nil => simp [ofBits]
  | cons b bs ih =>
    rw [ofBits, BitVec.getLsbD_xor, BitVec.getLsbD_shiftLeft, getLsbD_lowBit]
    cases i with
    | zero => simp
    | succ i =>
      have hlast : decide (i + 1 < w) = true → decide (i < w) = true := by
        simp only [decide_eq_true_eq]
        omega
      rw [Nat.add_sub_cancel, ih, List.getD_cons_succ]
      cases hi : decide (i + 1 < w) with
      | false => simp
      | true => simp [hlast hi]

theorem ofBits_msb {bs : List Bool} (h : bs.length < w) : (ofBits w bs).msb = false := by
  rw [BitVec.msb_eq_getLsbD_last, getLsbD_ofBits, List.getD_eq_default _ _ (by omega),
    Bool.and_false]

theorem ofBits_injective {xs ys : List Bool} (hlen : xs.length = ys.length) (hw : xs.length ≤ w)
    (h : ofBits w xs = ofBits w ys) : xs = ys := by
  refine List.ext_getElem hlen fun i hx hy => ?_
  have hbit := congrArg (fun x => x.getLsbD i) h
  simp only [getLsbD_ofBits] at hbit
  rw [decide_eq_true (by omega : i < w), Bool.true_and, Bool.true_and, List.getD_eq_getElem _ _ hx,
    List.getD_eq_getElem _ _ hy] at hbit
  exact hbit

/-- What is added one place up is there after the move. -/
theorem shift_xor {v : BitVec w} (hv : v.msb = false) :
    shift poly (r ^^^ v <<< 1) = shift poly r ^^^ v := by
  have hlow : (r ^^^ v <<< 1).getLsbD 0 = r.getLsbD 0 := by simp
  have hdown : (v <<< 1) >>> 1 = v := by
    refine BitVec.eq_of_getLsbD_eq fun i hi => ?_
    rw [BitVec.getLsbD_ushiftRight, BitVec.getLsbD_shiftLeft]
    by_cases hlast : 1 + i < w
    · simp [hlast]
    · obtain rfl : i = w - 1 := by omega
      rw [BitVec.msb_eq_getLsbD_last] at hv
      simp [hv]
  rw [shift, hlow, BitVec.ushiftRight_xor_distrib, hdown, shift, BitVec.xor_assoc, BitVec.xor_assoc,
    BitVec.xor_comm v]

/-- **Up to `w` bits may be added all at once.** -/
theorem feedAll_ofBits {bs : List Bool} (h : bs.length ≤ w) :
    feedAll poly r bs = (shift poly)^[bs.length] (r ^^^ ofBits w bs) := by
  induction bs generalizing r with
  | nil => exact (BitVec.xor_zero).symm
  | cons b bs ih =>
    have hstep : feed poly r b ^^^ ofBits w bs = shift poly (r ^^^ ofBits w (b :: bs)) := by
      rw [feed, ← shift_xor (ofBits_msb h), ofBits, BitVec.xor_assoc, BitVec.xor_comm (lowBit w b)]
    show feedAll poly (feed poly r b) bs = _
    rw [ih (Nat.le_of_succ_le h), hstep]
    rfl

/-! ## Bursts -/

/-- The messages differ in no bits but `n` consecutive ones. -/
def Burst (n : Nat) (xs ys : List Bool) : Prop := ∃ k, ∀ i, xs[i]? ≠ ys[i]? → k ≤ i ∧ i < k + n

/-- What two such messages have in common, and what not. -/
theorem Burst.split {n : Nat} {xs ys : List Bool} (h : Burst n xs ys)
    (hlen : xs.length = ys.length) :
    ∃ before xs' ys' after, xs = before ++ xs' ++ after ∧ ys = before ++ ys' ++ after ∧
      xs'.length = ys'.length ∧ xs'.length ≤ n := by
  obtain ⟨k, hk⟩ := h
  have hsame : ∀ i, i < k ∨ k + n ≤ i → xs[i]? = ys[i]? := by
    intro i hi
    by_contra hne
    have hin := hk i hne
    omega
  have hbefore : xs.take k = ys.take k := by
    refine List.ext_getElem? fun i => ?_
    rw [List.getElem?_take, List.getElem?_take]
    by_cases hi : i < k
    · rw [if_pos hi, if_pos hi, hsame i (.inl hi)]
    · rw [if_neg hi, if_neg hi]
  have hafter : (xs.drop k).drop n = (ys.drop k).drop n := by
    refine List.ext_getElem? fun i => ?_
    rw [List.drop_drop, List.drop_drop, List.getElem?_drop, List.getElem?_drop]
    exact hsame _ (.inr (by omega))
  refine ⟨xs.take k, (xs.drop k).take n, (ys.drop k).take n, (xs.drop k).drop n, ?_, ?_, ?_, ?_⟩
  · rw [List.append_assoc, List.take_append_drop, List.take_append_drop]
  · rw [hbefore, hafter, List.append_assoc, List.take_append_drop, List.take_append_drop]
  · rw [List.length_take, List.length_take, List.length_drop, List.length_drop, hlen]
  · exact List.length_take_le _ _

/-- Messages with the same beginning and the same end. -/
theorem burst_of_eq {n k : Nat} {xs ys : List Bool} (hbefore : xs.take k = ys.take k)
    (hafter : xs.drop (k + n) = ys.drop (k + n)) : Burst n xs ys := by
  refine ⟨k, fun i hne => ⟨Nat.le_of_not_lt fun hi => hne ?_, Nat.lt_of_not_le fun hi => hne ?_⟩⟩
  · rw [← List.getElem?_take_of_lt hi, hbefore, List.getElem?_take_of_lt hi]
  · have hget := congrArg (fun l => l[i - (k + n)]?) hafter
    simpa only [List.getElem?_drop, Nat.add_sub_cancel' hi] using hget

/-- **A burst no longer than the register shows in it.** -/
theorem feedAll_ne (hpoly : poly.msb = true) {xs ys : List Bool} (hlen : xs.length = ys.length)
    (hne : xs ≠ ys) (hburst : Burst w xs ys) : feedAll poly r xs ≠ feedAll poly r ys := by
  obtain ⟨before, xs', ys', after, rfl, rfl, hlen', hw⟩ := hburst.split hlen
  intro h
  unfold feedAll at h
  rw [List.foldl_append, List.foldl_append, List.foldl_append, List.foldl_append] at h
  have hmid : feedAll poly (feedAll poly r before) xs' = feedAll poly (feedAll poly r before) ys' :=
    feedAll_injective hpoly after h
  have hw' : ys'.length ≤ w := by omega
  have hx := @feedAll_ofBits w poly (feedAll poly r before) xs' hw
  have hy := @feedAll_ofBits w poly (feedAll poly r before) ys' hw'
  rw [hx, hy, hlen'] at hmid
  have hbits := BitVec.xor_right_inj _ |>.mp ((shift_injective hpoly).iterate _ hmid)
  rw [ofBits_injective hlen' hw hbits] at hne
  exact hne rfl

/-! ## Bytes -/

/-- The bits of a byte, least significant first. -/
def byteBits (b : UInt8) : List Bool := (List.range 8).map b.toNat.testBit

/-- The bits of a string, byte after byte. -/
def bits (bs : List UInt8) : List Bool := bs.flatMap byteBits

@[simp] theorem byteBits_length (b : UInt8) : (byteBits b).length = 8 := by
  rw [byteBits, List.length_map, List.length_range]

theorem byteBits_getD (b : UInt8) (i : Nat) : (byteBits b).getD i false = b.toNat.testBit i := by
  by_cases hi : i < 8
  · rw [List.getD_eq_getElem _ _ (by rwa [byteBits_length])]
    simp [byteBits]
  · have hb : b.toNat < 2 ^ i :=
      Nat.lt_of_lt_of_le b.toNat_lt (Nat.pow_le_pow_right (by omega) (by omega))
    rw [List.getD_eq_default _ _ (by rw [byteBits_length]; omega), Nat.testBit_lt_two_pow hb]

theorem byteBits_injective : Function.Injective byteBits := by
  intro b c h
  refine UInt8.toNat_inj.mp (Nat.eq_of_testBit_eq fun i => ?_)
  rw [← byteBits_getD, ← byteBits_getD, h]

theorem bits_length (bs : List UInt8) : (bits bs).length = 8 * bs.length := by
  induction bs with
  | nil => rfl
  | cons b bs ih =>
    rw [bits, List.flatMap_cons, List.length_append, byteBits_length, ← bits, ih, List.length_cons]
    omega

theorem bits_injective : Function.Injective bits := by
  intro xs
  induction xs with
  | nil =>
    intro ys h
    have hlen := congrArg List.length h
    rw [bits_length, bits_length, List.length_nil] at hlen
    exact (List.length_eq_zero_iff.mp (by omega)).symm
  | cons x xs ih =>
    intro ys h
    cases ys with
    | nil =>
      have hlen := congrArg List.length h
      rw [bits_length, bits_length, List.length_nil, List.length_cons] at hlen
      omega
    | cons y ys =>
      obtain ⟨hhead, htail⟩ := List.append_inj h (by rw [byteBits_length, byteBits_length])
      rw [byteBits_injective hhead, ih htail]

end Crc
