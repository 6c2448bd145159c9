import PicoBLE.Lib.Fips180

/-!
# `sha256.c`: the streaming hash

The C implementation keeps eight words of state, a bit counter and a 64-byte
buffer. The buffer is modelled by the `buf_len` bytes it holds, which is all
any function of the file reads of it.
-/

namespace PicoBLE.Sha256

open Fips180 (HashValue)

/-- A 32-byte digest. -/
abbrev Digest := { bs : List UInt8 // bs.length = 32 }

/-- `memset(digest, 0, 32)`. -/
def zeroDigest : Digest := ⟨List.replicate 32 0, List.length_replicate⟩

/-- `sha256_ctx_t`. -/
structure Sha256Ctx where
  state : HashValue
  /-- A `uint64_t`. -/
  totalBits : Nat
  /-- The first `buf_len` bytes of `buf`. -/
  buf : List UInt8
deriving DecidableEq, Repr

/-- Round constants. -/
def K : List UInt32 := [
  0x428a2f98, 0x71374491, 0xb5c0fbcf, 0xe9b5dba5, 0x3956c25b, 0x59f111f1, 0x923f82a4, 0xab1c5ed5,
  0xd807aa98, 0x12835b01, 0x243185be, 0x550c7dc3, 0x72be5d74, 0x80deb1fe, 0x9bdc06a7, 0xc19bf174,
  0xe49b69c1, 0xefbe4786, 0x0fc19dc6, 0x240ca1cc, 0x2de92c6f, 0x4a7484aa, 0x5cb0a9dc, 0x76f988da,
  0x983e5152, 0xa831c66d, 0xb00327c8, 0xbf597fc7, 0xc6e00bf3, 0xd5a79147, 0x06ca6351, 0x14292967,
  0x27b70a85, 0x2e1b2138, 0x4d2c6dfc, 0x53380d13, 0x650a7354, 0x766a0abb, 0x81c2c92e, 0x92722c85,
  0xa2bfe8a1, 0xa81a664b, 0xc24b8b70, 0xc76c51a3, 0xd192e819, 0xd6990624, 0xf40e3585, 0x106aa070,
  0x19a4c116, 0x1e376c08, 0x2748774c, 0x34b0bcb5, 0x391c0cb3, 0x4ed8aa4a, 0x5b9cca4f, 0x682e6ff3,
  0x748f82ee, 0x78a5636f, 0x84c87814, 0x8cc70208, 0x90befffa, 0xa4506ceb, 0xbef9a3f7, 0xc67178f2]

def rotr (x n : UInt32) : UInt32 := (x >>> n) ||| (x <<< (32 - n))

/-- `w[i]` for `i < 16`: a big-endian word of the block. -/
def loadWord (block : List UInt8) (i : Nat) : UInt32 :=
  ((block.getD (i * 4) 0).toUInt32 <<< 24) |||
  ((block.getD (i * 4 + 1) 0).toUInt32 <<< 16) |||
  ((block.getD (i * 4 + 2) 0).toUInt32 <<< 8) |||
  (block.getD (i * 4 + 3) 0).toUInt32

/-- `w[i]` for `16 ≤ i`, from the words before it. -/
def mixWord (w : List UInt32) (i : Nat) : UInt32 :=
  let s0 := rotr (w.getD (i - 15) 0) 7 ^^^ rotr (w.getD (i - 15) 0) 18 ^^^ (w.getD (i - 15) 0 >>> 3)
  let s1 := rotr (w.getD (i - 2) 0) 17 ^^^ rotr (w.getD (i - 2) 0) 19 ^^^ (w.getD (i - 2) 0 >>> 10)
  w.getD (i - 16) 0 + s0 + w.getD (i - 7) 0 + s1

/-- The array `w` after the two loading loops. -/
def messageWords (block : List UInt8) : List UInt32 :=
  (List.range' 16 48).foldl (fun w i => w ++ [mixWord w i]) ((List.range 16).map (loadWord block))

/-- The body of the 64-round loop. -/
def roundStep (w : List UInt32) (v : HashValue) (i : Nat) : HashValue :=
  let S1 := rotr v.e 6 ^^^ rotr v.e 11 ^^^ rotr v.e 25
  let ch := (v.e &&& v.f) ^^^ (~~~v.e &&& v.g)
  let t1 := v.h + S1 + ch + K.getD i 0 + w.getD i 0
  let S0 := rotr v.a 2 ^^^ rotr v.a 13 ^^^ rotr v.a 22
  let mj := (v.a &&& v.b) ^^^ (v.a &&& v.c) ^^^ (v.b &&& v.c)
  let t2 := S0 + mj
  { a := t1 + t2, b := v.a, c := v.b, d := v.c, e := v.d + t1, f := v.e, g := v.f, h := v.g }

/-- `transform`. -/
def transform (state : HashValue) (block : List UInt8) : HashValue :=
  let v := (List.range 64).foldl (roundStep (messageWords block)) state
  { a := state.a + v.a, b := state.b + v.b, c := state.c + v.c, d := state.d + v.d,
    e := state.e + v.e, f := state.f + v.f, g := state.g + v.g, h := state.h + v.h }

/-- `sha256_init`. -/
def sha256Init : Sha256Ctx where
  state := {
    a := 0x6a09e667, b := 0xbb67ae85, c := 0x3c6ef372, d := 0xa54ff53a,
    e := 0x510e527f, f := 0x9b05688c, g := 0x1f83d9ab, h := 0x5be0cd19 }
  totalBits := 0
  buf := []

/-- `while (len >= 64)`: the blocks taken straight from the input, and what is left. -/
def fullBlocks (state : HashValue) (p : List UInt8) : HashValue × List UInt8 :=
  if 64 ≤ p.length then fullBlocks (transform state (p.take 64)) (p.drop 64) else (state, p)
termination_by p.length
decreasing_by rw [List.length_drop]; omega

/-- "Top up the partial buffer first": the context and the input left over. -/
def topUp (ctx : Sha256Ctx) (p : List UInt8) : Sha256Ctx × List UInt8 :=
  if ctx.buf.length ≠ 0 then
    let take := min p.length (64 - ctx.buf.length)
    let buf := ctx.buf ++ p.take take
    if buf.length = 64 then
      ({ ctx with state := transform ctx.state buf, buf := [] }, p.drop take)
    else
      ({ ctx with buf := buf }, p.drop take)
  else
    (ctx, p)

/-- `sha256_update`. -/
def sha256Update (ctx : Sha256Ctx) (data : List UInt8) : Sha256Ctx :=
  let ctx := { ctx with totalBits := (ctx.totalBits + data.length * 8) % 2 ^ 64 }
  let (ctx, p) := topUp ctx data
  let (state, p) := fullBlocks ctx.state p
  if p.length ≠ 0 then { ctx with state := state, buf := p } else { ctx with state := state }

/-- The eight length bytes, most significant first. -/
def lengthBytes (bits : Nat) : List UInt8 :=
  (List.range 8).map fun i => UInt8.ofNat (bits >>> (56 - i * 8))

/-- The four bytes `out[4 * i ..]` of one state word. -/
def wordBytes (w : UInt32) : List UInt8 :=
  [(w >>> 24).toUInt8, (w >>> 16).toUInt8, (w >>> 8).toUInt8, w.toUInt8]

/-- The digest of a state, big-endian. -/
def digestOf (v : HashValue) : Digest :=
  ⟨wordBytes v.a ++ wordBytes v.b ++ wordBytes v.c ++ wordBytes v.d ++
    wordBytes v.e ++ wordBytes v.f ++ wordBytes v.g ++ wordBytes v.h, rfl⟩

/-- `sha256_final`: the context it leaves and the digest. -/
def sha256Final (ctx : Sha256Ctx) : Sha256Ctx × Digest :=
  let buf := ctx.buf ++ [0x80]
  let (state, buf) :=
    if buf.length > 56 then
      (transform ctx.state (buf ++ List.replicate (64 - buf.length) 0), [])
    else
      (ctx.state, buf)
  let block := buf ++ List.replicate (56 - buf.length) 0 ++ lengthBytes ctx.totalBits
  let state := transform state block
  ({ ctx with state := state, buf := block }, digestOf state)

/-! ## Hexadecimal -/

/-- `hex_nibble`; `none` is `-1`. -/
def hexNibble (c : UInt8) : Option UInt8 :=
  if 48 ≤ c ∧ c ≤ 57 then some (c - 48)
  else if 97 ≤ c ∧ c ≤ 102 then some (10 + (c - 97))
  else if 65 ≤ c ∧ c ≤ 70 then some (10 + (c - 65))
  else none

/-- The loop of `sha256_parse_hex`, up to the `n`-th byte. -/
def parseHexBytes (hex : List UInt8) : (n : Nat) → Option { bs : List UInt8 // bs.length = n }
  | 0 => some ⟨[], rfl⟩
  | n + 1 =>
    match parseHexBytes hex n, hexNibble (hex.getD (n * 2) 0),
        hexNibble (hex.getD (n * 2 + 1) 0) with
    | some bs, some hi, some lo =>
      some ⟨bs.1 ++ [hi <<< 4 ||| lo], by rw [List.length_append, bs.2, List.length_singleton]⟩
    | _, _, _ => none

/-- `sha256_parse_hex`, on the characters in front of the NUL. -/
def sha256ParseHex (hex : List UInt8) : Option Digest :=
  match parseHexBytes hex 32 with
  | some d => if hex.getD 64 0 = 0 then some d else none
  | none => none

/-- `sha256_equal`: the differences are or-ed together and tested once. -/
def sha256Equal (a b : Digest) : Bool :=
  (List.zipWith (fun x y => x ^^^ y) a.1 b.1).foldl (fun diff d => diff ||| d) 0 == 0

end PicoBLE.Sha256
