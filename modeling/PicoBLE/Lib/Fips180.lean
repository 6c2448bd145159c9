import Mathlib.Data.List.GetD
import Mathlib.Tactic.Common
import Mathlib.Tactic.Ring

/-!
# SHA-256 as FIPS 180-4 defines it

The standard's definition, on byte strings: pad the message to a whole number
of 64-byte blocks, fold the compression function over the blocks, and write
the final hash value out big-endian. Words and lengths are spelled as numbers
(a word is the base-256 value of four bytes) so that an implementation's
shifts and masks have something independent to agree with.

`absorb` is the fold, and the two facts about it that a streaming
implementation needs are at the end: blocks can be absorbed in instalments,
and only the first `64 * n` bytes matter to `n` blocks.
-/

namespace Fips180

/-! ## Words -/

/-- The big-endian value of a byte string. -/
def beNat (bs : List UInt8) : Nat := bs.foldl (fun n b => n * 256 + b.toNat) 0

/-- The `n` big-endian bytes of a number. -/
def beBytes : Nat → Nat → List UInt8
  | 0, _ => []
  | n + 1, v => beBytes n (v / 256) ++ [UInt8.ofNat v]

@[simp] theorem beBytes_length (n v : Nat) : (beBytes n v).length = n := by
  induction n generalizing v with
  | zero => rfl
  | succ n ih => simp [beBytes, ih]

/-! ## Functions and constants (sections 4.1.2 and 4.2.2) -/

def rotr (n x : UInt32) : UInt32 := (x >>> n) ||| (x <<< (32 - n))
def ch (x y z : UInt32) : UInt32 := (x &&& y) ^^^ (~~~x &&& z)
def maj (x y z : UInt32) : UInt32 := (x &&& y) ^^^ (x &&& z) ^^^ (y &&& z)
def bigSigma0 (x : UInt32) : UInt32 := rotr 2 x ^^^ rotr 13 x ^^^ rotr 22 x
def bigSigma1 (x : UInt32) : UInt32 := rotr 6 x ^^^ rotr 11 x ^^^ rotr 25 x
def sigma0 (x : UInt32) : UInt32 := rotr 7 x ^^^ rotr 18 x ^^^ (x >>> 3)
def sigma1 (x : UInt32) : UInt32 := rotr 17 x ^^^ rotr 19 x ^^^ (x >>> 10)

/-- First 32 bits of the fractional parts of the cube roots of the first 64 primes. -/
def K : List UInt32 := [
  0x428a2f98, 0x71374491, 0xb5c0fbcf, 0xe9b5dba5, 0x3956c25b, 0x59f111f1, 0x923f82a4, 0xab1c5ed5,
  0xd807aa98, 0x12835b01, 0x243185be, 0x550c7dc3, 0x72be5d74, 0x80deb1fe, 0x9bdc06a7, 0xc19bf174,
  0xe49b69c1, 0xefbe4786, 0x0fc19dc6, 0x240ca1cc, 0x2de92c6f, 0x4a7484aa, 0x5cb0a9dc, 0x76f988da,
  0x983e5152, 0xa831c66d, 0xb00327c8, 0xbf597fc7, 0xc6e00bf3, 0xd5a79147, 0x06ca6351, 0x14292967,
  0x27b70a85, 0x2e1b2138, 0x4d2c6dfc, 0x53380d13, 0x650a7354, 0x766a0abb, 0x81c2c92e, 0x92722c85,
  0xa2bfe8a1, 0xa81a664b, 0xc24b8b70, 0xc76c51a3, 0xd192e819, 0xd6990624, 0xf40e3585, 0x106aa070,
  0x19a4c116, 0x1e376c08, 0x2748774c, 0x34b0bcb5, 0x391c0cb3, 0x4ed8aa4a, 0x5b9cca4f, 0x682e6ff3,
  0x748f82ee, 0x78a5636f, 0x84c87814, 0x8cc70208, 0x90befffa, 0xa4506ceb, 0xbef9a3f7, 0xc67178f2]

/-- A hash value: the eight 32-bit words `H0 .. H7`, or the working variables. -/
structure HashValue where
  a : UInt32
  b : UInt32
  c : UInt32
  d : UInt32
  e : UInt32
  f : UInt32
  g : UInt32
  h : UInt32
deriving DecidableEq, Repr

/-- The initial hash value (section 5.3.3). -/
def H0 : HashValue where
  a := 0x6a09e667
  b := 0xbb67ae85
  c := 0x3c6ef372
  d := 0xa54ff53a
  e := 0x510e527f
  f := 0x9b05688c
  g := 0x1f83d9ab
  h := 0x5be0cd19

def HashValue.words (v : HashValue) : List UInt32 := [v.a, v.b, v.c, v.d, v.e, v.f, v.g, v.h]

/-! ## Compression (section 6.2.2) -/

/-- The sixteen words of a block. -/
def blockWords (block : List UInt8) : List UInt32 :=
  (List.range 16).map fun i => UInt32.ofNat (beNat ((block.drop (4 * i)).take 4))

/-- The next word of the message schedule. -/
def nextWord (w : List UInt32) : UInt32 :=
  sigma1 (w.getD (w.length - 2) 0) + w.getD (w.length - 7) 0
    + sigma0 (w.getD (w.length - 15) 0) + w.getD (w.length - 16) 0

/-- The message schedule, grown by `n` words. -/
def expand : Nat → List UInt32 → List UInt32
  | 0, w => w
  | n + 1, w => expand n (w ++ [nextWord w])

/-- `W_0 .. W_63`. -/
def schedule (block : List UInt8) : List UInt32 := expand 48 (blockWords block)

/-- One round, on the round's constant and schedule word. -/
def round (v : HashValue) (k w : UInt32) : HashValue :=
  let t1 := v.h + bigSigma1 v.e + ch v.e v.f v.g + k + w
  let t2 := bigSigma0 v.a + maj v.a v.b v.c
  { a := t1 + t2, b := v.a, c := v.b, d := v.c, e := v.d + t1, f := v.e, g := v.f, h := v.g }

/-- Word-wise addition. -/
def HashValue.add (u v : HashValue) : HashValue where
  a := u.a + v.a
  b := u.b + v.b
  c := u.c + v.c
  d := u.d + v.d
  e := u.e + v.e
  f := u.f + v.f
  g := u.g + v.g
  h := u.h + v.h

/-- Absorb one 64-byte block. -/
def compress (v : HashValue) (block : List UInt8) : HashValue :=
  let w := schedule block
  v.add ((List.range 64).foldl (fun u t => round u (K.getD t 0) (w.getD t 0)) v)

/-- Absorb `n` blocks from the front of a byte string. -/
def absorb : Nat → HashValue → List UInt8 → HashValue
  | 0, v, _ => v
  | n + 1, v, bs => absorb n (compress v (bs.take 64)) (bs.drop 64)

/-! ## The hash (sections 5.1.1 and 6.2.2) -/

/-- How many zero bytes complete the last block. -/
def zeroCount (len : Nat) : Nat := (119 - len % 64) % 64

/-- The padded message. -/
def pad (msg : List UInt8) : List UInt8 :=
  msg ++ 0x80 :: List.replicate (zeroCount msg.length) 0 ++ beBytes 8 (8 * msg.length)

/-- A hash value as 32 bytes. -/
def HashValue.bytes (v : HashValue) : List UInt8 :=
  v.words.flatMap fun w => beBytes 4 w.toNat

/-- **SHA-256.** -/
def sha256 (msg : List UInt8) : List UInt8 :=
  (absorb ((pad msg).length / 64) H0 (pad msg)).bytes

theorem pad_length (msg : List UInt8) :
    (pad msg).length = 64 * ((msg.length + 72) / 64) := by
  simp only [pad, List.length_append, List.length_cons, List.length_replicate, beBytes_length,
    zeroCount]
  omega

/-! ## Absorbing in instalments -/

/-- `n` blocks depend on the first `64 * n` bytes only. -/
theorem absorb_append {n : Nat} {v : HashValue} {bs cs : List UInt8}
    (h : 64 * n ≤ bs.length) : absorb n v (bs ++ cs) = absorb n v bs := by
  induction n generalizing v bs with
  | zero => rfl
  | succ n ih =>
    rw [absorb, absorb, List.take_append_of_le_length (by omega),
      List.drop_append_of_le_length (by omega), ih (by rw [List.length_drop]; omega)]

/-- Absorbing `m + n` blocks is absorbing `m`, then `n` more. -/
theorem absorb_add (m n : Nat) (v : HashValue) (bs : List UInt8) :
    absorb (m + n) v bs = absorb n (absorb m v bs) (bs.drop (64 * m)) := by
  induction m generalizing v bs with
  | zero => rw [Nat.zero_add, Nat.mul_zero, List.drop_zero, absorb]
  | succ m ih =>
    rw [show m + 1 + n = m + n + 1 by omega, absorb, absorb, ih, List.drop_drop,
      show 64 + 64 * m = 64 * (m + 1) by omega]

theorem absorb_one {v : HashValue} {bs : List UInt8} (h : bs.length = 64) :
    absorb 1 v bs = compress v bs := by
  rw [absorb, absorb, List.take_of_length_le (by omega)]

end Fips180
