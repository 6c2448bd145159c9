import Mathlib.Data.List.Basic
import PicoBLE.Ota.Sha256

/-!
# The streaming hash computes SHA-256

`Holds ctx msg` says what a context means: it has absorbed the whole blocks of
`msg`, keeps the rest of `msg` in its buffer and has counted its bits. Init
establishes it, every update extends the message, and the digest of a context
that holds `msg` is the standard's hash of `msg`.

The work is in one place: `topUp` and `fullBlocks` together absorb the whole
blocks of *buffer then input* and leave the tail, however the input is cut.
-/

namespace PicoBLE.Sha256

open Fips180 (HashValue absorb absorb_add absorb_append absorb_one)

/-! ## `transform` is the standard's compression function -/

/-- Shifting four bytes together is reading them as a base-256 number. -/
private theorem shifts_eq {b0 b1 b2 b3 : Nat} (h1 : b1 < 256) (h2 : b2 < 256) (h3 : b3 < 256) :
    b0 <<< 24 ||| b1 <<< 16 ||| b2 <<< 8 ||| b3 = ((b0 * 256 + b1) * 256 + b2) * 256 + b3 := by
  have e1 : b0 <<< 24 ||| b1 <<< 16 = (b0 * 256 + b1) <<< 16 := by
    rw [← Nat.shiftLeft_add_eq_or_of_lt (by rw [Nat.shiftLeft_eq]; omega)]
    simp only [Nat.shiftLeft_eq]; omega
  have e2 : (b0 * 256 + b1) <<< 16 ||| b2 <<< 8 = ((b0 * 256 + b1) * 256 + b2) <<< 8 := by
    rw [← Nat.shiftLeft_add_eq_or_of_lt (by rw [Nat.shiftLeft_eq]; omega)]
    simp only [Nat.shiftLeft_eq]; omega
  rw [e1, e2, ← Nat.shiftLeft_add_eq_or_of_lt (by omega), Nat.shiftLeft_eq]

private theorem toNat_shl (b : UInt8) {k : UInt32} (hk : k.toNat ≤ 24) :
    (b.toUInt32 <<< k).toNat = b.toNat <<< k.toNat := by
  have hb := b.toNat_lt
  have hle : 2 ^ k.toNat ≤ 2 ^ 24 := Nat.pow_le_pow_right (by omega) hk
  rw [UInt32.toNat_shiftLeft, UInt8.toNat_toUInt32, Nat.mod_eq_of_lt (a := k.toNat) (by omega),
    Nat.shiftLeft_eq, Nat.mod_eq_of_lt]
  exact lt_of_lt_of_le (Nat.mul_lt_mul_of_lt_of_le hb hle (by decide)) (by decide)

theorem loadWord_eq {block : List UInt8} {i : Nat} (h : 4 * i + 4 ≤ block.length) :
    loadWord block i = UInt32.ofNat (Fips180.beNat ((block.drop (4 * i)).take 4)) := by
  obtain ⟨b0, b1, b2, b3, rest, hb⟩ :
      ∃ b0 b1 b2 b3 rest, block.drop (4 * i) = b0 :: b1 :: b2 :: b3 :: rest := by
    have hl : 4 ≤ (block.drop (4 * i)).length := by rw [List.length_drop]; omega
    match block.drop (4 * i), hl with
    | b0 :: b1 :: b2 :: b3 :: rest, _ => exact ⟨b0, b1, b2, b3, rest, rfl⟩
  have hget : ∀ k, block.getD (i * 4 + k) 0 = (b0 :: b1 :: b2 :: b3 :: rest).getD k 0 := by
    intro k
    rw [← hb, List.getD_eq_getElem?_getD, List.getD_eq_getElem?_getD, List.getElem?_drop,
      Nat.mul_comm]
  have h0 := hget 0; have h1 := hget 1; have h2 := hget 2; have h3 := hget 3
  simp only [Nat.add_zero, List.getD_cons_zero, List.getD_cons_succ] at h0 h1 h2 h3
  unfold loadWord
  rw [h0, h1, h2, h3, hb]
  apply UInt32.toNat_inj.mp
  have l0 := b0.toNat_lt; have l1 := b1.toNat_lt; have l2 := b2.toNat_lt; have l3 := b3.toNat_lt
  rw [UInt32.toNat_or, UInt32.toNat_or, UInt32.toNat_or, toNat_shl b0 (by decide),
    toNat_shl b1 (by decide), toNat_shl b2 (by decide), UInt8.toNat_toUInt32, UInt32.toNat_ofNat']
  have hv : Fips180.beNat ((b0 :: b1 :: b2 :: b3 :: rest).take 4)
      = ((b0.toNat * 256 + b1.toNat) * 256 + b2.toNat) * 256 + b3.toNat := by
    simp only [Fips180.beNat, List.take_succ_cons, List.take_zero, List.foldl_cons,
      List.foldl_nil, Nat.zero_mul, Nat.zero_add]
  rw [hv, Nat.mod_eq_of_lt (by omega), ← shifts_eq l1 l2 l3]
  rfl

/-- The code's schedule step is the standard's. -/
theorem mixWord_eq (w : List UInt32) : mixWord w w.length = Fips180.nextWord w := by
  have swap : ∀ a b c d : UInt32, a + b + c + d = d + c + b + a := by
    intro a b c d
    rw [UInt32.add_comm (a + b + c), UInt32.add_comm (a + b), UInt32.add_comm a, UInt32.add_assoc,
      UInt32.add_assoc]
  exact swap _ _ _ _

private theorem expand_eq (n : Nat) (w : List UInt32) :
    (List.range' w.length n).foldl (fun w i => w ++ [mixWord w i]) w = Fips180.expand n w := by
  induction n generalizing w with
  | zero => rfl
  | succ n ih =>
    rw [List.range'_succ, List.foldl_cons, Fips180.expand, mixWord_eq, ← ih]
    simp

theorem messageWords_eq {block : List UInt8} (h : block.length = 64) :
    messageWords block = Fips180.schedule block := by
  have hw : (List.range 16).map (loadWord block) = Fips180.blockWords block := by
    refine List.map_congr_left fun i hi => loadWord_eq ?_
    have := List.mem_range.mp hi
    omega
  unfold messageWords Fips180.schedule
  rw [hw]
  exact expand_eq 48 (Fips180.blockWords block)

/-- **`transform` compresses one block.** -/
theorem transform_eq {state : HashValue} {block : List UInt8} (h : block.length = 64) :
    transform state block = Fips180.compress state block := by
  unfold transform Fips180.compress
  rw [messageWords_eq h]
  have hr : roundStep (Fips180.schedule block) = fun (v : HashValue) (t : Nat) =>
      Fips180.round v (Fips180.K.getD t 0) ((Fips180.schedule block).getD t 0) := by
    funext v t; rfl
  rw [hr]
  rfl

/-! ## What a context means -/

/-- The context has absorbed `msg`. -/
structure Holds (ctx : Sha256Ctx) (msg : List UInt8) : Prop where
  /-- The whole blocks are in the state. -/
  state : ctx.state = absorb (msg.length / 64) Fips180.H0 msg
  /-- The rest is in the buffer. -/
  buf : ctx.buf = msg.drop (64 * (msg.length / 64))
  /-- Every bit is counted. -/
  bits : ctx.totalBits = 8 * msg.length % 2 ^ 64

/-- The buffer never holds a whole block between calls. -/
theorem Holds.buf_lt {ctx : Sha256Ctx} {msg : List UInt8} (h : Holds ctx msg) :
    ctx.buf.length < 64 := by
  rw [h.buf, List.length_drop]; omega

theorem sha256Init_holds : Holds sha256Init [] := ⟨rfl, rfl, rfl⟩

theorem fullBlocks_eq (state : HashValue) (p : List UInt8) :
    fullBlocks state p = (absorb (p.length / 64) state p, p.drop (64 * (p.length / 64))) := by
  induction state, p using fullBlocks.induct with
  | case1 state p h ih =>
    have hl : (p.take 64).length = 64 := by rw [List.length_take]; omega
    have hd : p.length / 64 = (p.drop 64).length / 64 + 1 := by rw [List.length_drop]; omega
    rw [fullBlocks, if_pos h, ih, hd, absorb, transform_eq hl, List.drop_drop]
    congr 2
    omega
  | case2 state p h =>
    rw [fullBlocks, if_neg h, show p.length / 64 = 0 by omega]
    rfl

/-- The buffer fills up and is compressed. -/
theorem topUp_fill {ctx : Sha256Ctx} {p : List UInt8} (h0 : ctx.buf ≠ []) (h : ctx.buf.length < 64)
    (hp : 64 - ctx.buf.length ≤ p.length) :
    topUp ctx p = ({ ctx with
        state := absorb 1 ctx.state (ctx.buf ++ p), buf := [] }, p.drop (64 - ctx.buf.length)) := by
  have hm : min p.length (64 - ctx.buf.length) = 64 - ctx.buf.length := by omega
  have hl : (ctx.buf ++ p.take (64 - ctx.buf.length)).length = 64 := by
    rw [List.length_append, List.length_take]; omega
  have hsplit : ctx.buf ++ p
      = (ctx.buf ++ p.take (64 - ctx.buf.length)) ++ p.drop (64 - ctx.buf.length) := by
    rw [List.append_assoc, List.take_append_drop]
  unfold topUp
  rw [if_pos (by simpa using h0)]
  dsimp only
  rw [hm, if_pos hl, hsplit, absorb_append (by omega), absorb_one hl, transform_eq hl]

/-- Everything fits in the buffer. -/
theorem topUp_fit {ctx : Sha256Ctx} {p : List UInt8} (h0 : ctx.buf ≠ [])
    (hp : ctx.buf.length + p.length < 64) :
    topUp ctx p = ({ ctx with buf := ctx.buf ++ p }, []) := by
  have hm : min p.length (64 - ctx.buf.length) = p.length := by omega
  unfold topUp
  rw [if_pos (by simpa using h0)]
  dsimp only
  rw [hm]
  simp only [List.take_length, List.drop_length, List.length_append]
  rw [if_neg (by omega)]

theorem topUp_empty {ctx : Sha256Ctx} {p : List UInt8} (h0 : ctx.buf = []) :
    topUp ctx p = (ctx, p) := by
  unfold topUp; rw [if_neg (by simp [h0])]

private theorem drop_block {buf p : List UInt8} (h : buf.length < 64) :
    (buf ++ p).drop 64 = p.drop (64 - buf.length) := by
  rw [List.drop_append, List.drop_of_length_le (by omega), List.nil_append]

private theorem tail_or_nil {α : Type} (l : List α) : (if l.length ≠ 0 then l else []) = l := by
  cases l <;> simp

/-- The two stages together absorb the whole blocks of buffer-then-input. -/
theorem topUp_fullBlocks_state {ctx : Sha256Ctx} {p : List UInt8} (h : ctx.buf.length < 64) :
    (fullBlocks (topUp ctx p).1.state (topUp ctx p).2).1
      = absorb ((ctx.buf ++ p).length / 64) ctx.state (ctx.buf ++ p) := by
  rw [fullBlocks_eq]
  by_cases h0 : ctx.buf = []
  · rw [topUp_empty h0, h0, List.nil_append]
  by_cases hp : 64 - ctx.buf.length ≤ p.length
  · -- the buffer is the first block, the rest follows from the input
    have hn : (ctx.buf ++ p).length / 64 = 1 + (p.drop (64 - ctx.buf.length)).length / 64 := by
      rw [List.length_append, List.length_drop]; omega
    rw [topUp_fill h0 h hp, hn, absorb_add, Nat.mul_one, drop_block h]
  · rw [topUp_fit h0 (by omega), List.length_append,
      show (ctx.buf.length + p.length) / 64 = 0 by omega]
    simp [absorb]

/-- And leave the tail in the buffer. -/
theorem topUp_fullBlocks_buf {ctx : Sha256Ctx} {p : List UInt8} (h : ctx.buf.length < 64) :
    (if (fullBlocks (topUp ctx p).1.state (topUp ctx p).2).2.length ≠ 0
      then (fullBlocks (topUp ctx p).1.state (topUp ctx p).2).2 else (topUp ctx p).1.buf)
      = (ctx.buf ++ p).drop (64 * ((ctx.buf ++ p).length / 64)) := by
  rw [fullBlocks_eq]
  by_cases h0 : ctx.buf = []
  · rw [topUp_empty h0, h0, List.nil_append]
    exact tail_or_nil _
  by_cases hp : 64 - ctx.buf.length ≤ p.length
  · have hn : (ctx.buf ++ p).length / 64 = 1 + (p.drop (64 - ctx.buf.length)).length / 64 := by
      rw [List.length_append, List.length_drop]; omega
    rw [topUp_fill h0 h hp, hn, Nat.mul_add, Nat.mul_one, ← List.drop_drop, drop_block h]
    exact tail_or_nil _
  · rw [topUp_fit h0 (by omega), List.length_append,
      show (ctx.buf.length + p.length) / 64 = 0 by omega]
    simp

theorem topUp_totalBits {ctx : Sha256Ctx} {p : List UInt8} (h : ctx.buf.length < 64) :
    (topUp ctx p).1.totalBits = ctx.totalBits := by
  by_cases h0 : ctx.buf = []
  · rw [topUp_empty h0]
  by_cases hp : 64 - ctx.buf.length ≤ p.length
  · -- the new state is hidden here, or comparing the two records would compute it
    obtain ⟨s, q, hf⟩ : ∃ s q, topUp ctx p = ({ ctx with state := s, buf := [] }, q) :=
      ⟨_, _, topUp_fill h0 h hp⟩
    rw [hf]
  · rw [topUp_fit h0 (by omega)]

/-- **An update extends the message.** -/
theorem sha256Update_holds {ctx : Sha256Ctx} {msg : List UInt8} (h : Holds ctx msg)
    (data : List UInt8) : Holds (sha256Update ctx data) (msg ++ data) := by
  let c : Sha256Ctx := { ctx with totalBits := (ctx.totalBits + data.length * 8) % 2 ^ 64 }
  have hlt : c.buf.length < 64 := h.buf_lt
  have hX : c.buf ++ data = (msg ++ data).drop (64 * (msg.length / 64)) := by
    show ctx.buf ++ data = _
    rw [h.buf, List.drop_append_of_le_length (by omega)]
  have hl : (c.buf ++ data).length = (msg ++ data).length - 64 * (msg.length / 64) := by
    rw [hX, List.length_drop]
  have hn : (msg ++ data).length / 64 = msg.length / 64 + (c.buf ++ data).length / 64 := by
    rw [hl, List.length_append]; omega
  have hstate : (sha256Update ctx data).state
      = (fullBlocks (topUp c data).1.state (topUp c data).2).1 := by
    unfold sha256Update; dsimp only; split <;> rfl
  have hbuf : (sha256Update ctx data).buf
      = if (fullBlocks (topUp c data).1.state (topUp c data).2).2.length ≠ 0
        then (fullBlocks (topUp c data).1.state (topUp c data).2).2
        else (topUp c data).1.buf := by
    unfold sha256Update; dsimp only; split <;> rfl
  have hbits : (sha256Update ctx data).totalBits = (topUp c data).1.totalBits := by
    unfold sha256Update; dsimp only; split <;> rfl
  refine ⟨?_, ?_, ?_⟩
  · have hmsg : 64 * (msg.length / 64) ≤ msg.length := by omega
    rw [hstate, topUp_fullBlocks_state hlt, hn, absorb_add, absorb_append hmsg, ← hX]
    show absorb _ ctx.state _ = _
    rw [h.state]
  · rw [hbuf, topUp_fullBlocks_buf hlt, hX, List.drop_drop, ← hX, ← Nat.mul_add, ← hn]
  · rw [hbits, topUp_totalBits hlt]
    show (ctx.totalBits + data.length * 8) % 2 ^ 64 = _
    rw [h.bits, List.length_append]
    omega

/-! ## The final block -/

private theorem lengthBytes_eq (bits : Nat) : lengthBytes bits = Fips180.beBytes 8 bits := by
  simp only [lengthBytes, List.range, List.range.loop, List.map, Fips180.beBytes, List.nil_append,
    List.cons_append, Nat.shiftRight_eq_div_pow, Nat.div_div_eq_div_mul]
  norm_num

private theorem wordBytes_eq (w : UInt32) : wordBytes w = Fips180.beBytes 4 w.toNat := by
  have byte : ∀ k : UInt32, k.toNat < 32 →
      (w >>> k).toUInt8 = UInt8.ofNat (w.toNat / 2 ^ k.toNat) := by
    intro k hk
    apply UInt8.toNat_inj.mp
    rw [UInt32.toNat_toUInt8, UInt32.toNat_shiftRight, UInt8.toNat_ofNat',
      Nat.mod_eq_of_lt hk, Nat.shiftRight_eq_div_pow]
  have b0 : w.toUInt8 = UInt8.ofNat w.toNat := by
    apply UInt8.toNat_inj.mp
    rw [UInt32.toNat_toUInt8, UInt8.toNat_ofNat']
  unfold wordBytes
  rw [byte 24 (by decide), byte 16 (by decide), byte 8 (by decide), b0]
  simp only [Fips180.beBytes, Nat.div_div_eq_div_mul]
  rfl

theorem digestOf_eq (v : HashValue) : (digestOf v).1 = v.bytes := by
  simp only [digestOf, HashValue.bytes, HashValue.words, wordBytes_eq, List.flatMap_cons,
    List.flatMap_nil, List.append_nil, List.append_assoc]

/-- **The digest of a context that holds `msg` is SHA-256 of `msg`.** -/
theorem sha256Final_eq {ctx : Sha256Ctx} {msg : List UInt8} (h : Holds ctx msg)
    (hlen : msg.length < 2 ^ 61) : (sha256Final ctx).2.1 = Fips180.sha256 msg := by
  have hbits : lengthBytes ctx.totalBits = Fips180.beBytes 8 (8 * msg.length) := by
    rw [lengthBytes_eq, h.bits, Nat.mod_eq_of_lt (by omega)]
  have hlt := h.buf_lt
  have hbl : ctx.buf.length = msg.length % 64 := by rw [h.buf, List.length_drop]; omega
  -- the padded message is the absorbed blocks, the buffer and the padding
  have hpad : (Fips180.pad msg).drop (64 * (msg.length / 64))
      = ctx.buf ++ 0x80 :: List.replicate (Fips180.zeroCount msg.length) 0
          ++ Fips180.beBytes 8 (8 * msg.length) := by
    unfold Fips180.pad
    rw [List.append_assoc, List.drop_append_of_le_length (by omega), ← h.buf, List.append_assoc]
  have habs : ∀ k, absorb (msg.length / 64 + k) Fips180.H0 (Fips180.pad msg)
      = absorb k ctx.state ((Fips180.pad msg).drop (64 * (msg.length / 64))) := by
    intro k
    rw [absorb_add]
    congr 1
    unfold Fips180.pad
    rw [List.append_assoc, absorb_append (by omega), h.state]
  have hblocks : (Fips180.pad msg).length / 64 = (msg.length + 72) / 64 := by
    rw [Fips180.pad_length]; omega
  unfold sha256Final Fips180.sha256
  rw [hblocks]
  dsimp only
  by_cases hlong : (ctx.buf ++ [0x80]).length > 56
  · -- no room for the length: the marker closes one block and the length gets another
    rw [if_pos hlong]
    dsimp only
    rw [List.length_append, List.length_singleton] at hlong ⊢
    rw [show (msg.length + 72) / 64 = msg.length / 64 + (1 + 1) by omega, habs, hpad, absorb_add,
      hbits, digestOf_eq]
    have hz : Fips180.zeroCount msg.length = (64 - (ctx.buf.length + 1)) + 56 := by
      unfold Fips180.zeroCount; omega
    have hsplit : ctx.buf ++ 0x80 :: List.replicate (Fips180.zeroCount msg.length) 0
          ++ Fips180.beBytes 8 (8 * msg.length)
        = (ctx.buf ++ [0x80] ++ List.replicate (64 - (ctx.buf.length + 1)) 0)
          ++ (List.replicate 56 0 ++ Fips180.beBytes 8 (8 * msg.length)) := by
      rw [hz, List.replicate_add]; simp
    have hl1 : (ctx.buf ++ [0x80] ++ List.replicate (64 - (ctx.buf.length + 1)) (0 : UInt8)).length
        = 64 := by
      simp only [List.length_append, List.length_singleton, List.length_replicate]; omega
    have hl2 : (List.replicate 56 (0 : UInt8) ++ Fips180.beBytes 8 (8 * msg.length)).length =
        64 := by
      simp
    rw [hsplit, absorb_append (by omega), absorb_one hl1, List.drop_left' (by omega),
      absorb_one hl2, transform_eq hl1]
    simp only [List.nil_append, List.length_nil, Nat.sub_zero]
    rw [transform_eq hl2]
  · -- one block takes the marker and the length
    rw [if_neg hlong]
    dsimp only
    rw [List.length_append, List.length_singleton] at hlong ⊢
    rw [show (msg.length + 72) / 64 = msg.length / 64 + 1 by omega, habs, hpad, hbits, digestOf_eq]
    have hz : Fips180.zeroCount msg.length = 56 - (ctx.buf.length + 1) := by
      unfold Fips180.zeroCount; omega
    have hsame : ctx.buf ++ 0x80 :: List.replicate (Fips180.zeroCount msg.length) 0
          ++ Fips180.beBytes 8 (8 * msg.length)
        = ctx.buf ++ [0x80] ++ List.replicate (56 - (ctx.buf.length + 1)) 0
          ++ Fips180.beBytes 8 (8 * msg.length) := by
      rw [hz]; simp
    have hl : (ctx.buf ++ [0x80] ++ List.replicate (56 - (ctx.buf.length + 1)) (0 : UInt8)
        ++ Fips180.beBytes 8 (8 * msg.length)).length = 64 := by
      simp only [List.length_append, List.length_singleton, List.length_replicate,
        Fips180.beBytes_length]
      omega
    rw [hsame, absorb_one hl, transform_eq hl]

/-! ## A message in chunks -/

/-- A context takes any number of chunks. -/
theorem foldl_holds {ctx : Sha256Ctx} {msg : List UInt8} (h : Holds ctx msg)
    (chunks : List (List UInt8)) :
    Holds (chunks.foldl sha256Update ctx) (msg ++ chunks.flatten) := by
  induction chunks generalizing ctx msg with
  | nil => rw [List.flatten_nil, List.append_nil]; exact h
  | cons chunk chunks ih =>
    rw [List.foldl_cons, List.flatten_cons, ← List.append_assoc]
    exact ih (sha256Update_holds h chunk)

/-- **However a message is cut up, its digest is SHA-256 of the whole.** The buffer is never full
when a function is called. -/
theorem digest_streamed (chunks : List (List UInt8)) (hlen : chunks.flatten.length < 2 ^ 61) :
    (sha256Final (chunks.foldl sha256Update sha256Init)).2.1 = Fips180.sha256 chunks.flatten ∧
      ∀ done, done <+: chunks → (done.foldl sha256Update sha256Init).buf.length < 64 :=
  ⟨sha256Final_eq (foldl_holds sha256Init_holds chunks) hlen,
    fun done _ => (foldl_holds sha256Init_holds done).buf_lt⟩

/-- `a`, nothing, and `bc`. -/
theorem abc_streamed :
    (sha256Final ([[0x61], [], [0x62, 0x63]].foldl sha256Update sha256Init)).2.1
        = Fips180.sha256 [0x61, 0x62, 0x63] ∧
      ∀ done, done <+: [[0x61], [], [0x62, 0x63]] →
      (done.foldl sha256Update sha256Init).buf.length < 64 :=
  digest_streamed [[0x61], [], [0x62, 0x63]] (by decide)

/-! ## Comparing digests -/

private theorem or_eq_zero {x y : UInt8} : x ||| y = 0 ↔ x = 0 ∧ y = 0 := by
  constructor
  · intro h
    have hn : x.toNat ||| y.toNat = 0 := by rw [← UInt8.toNat_or, h]; rfl
    obtain ⟨hx, hy⟩ := Nat.or_eq_zero_iff.mp hn
    exact ⟨UInt8.toNat_inj.mp hx, UInt8.toNat_inj.mp hy⟩
  · rintro ⟨rfl, rfl⟩; rfl

private theorem foldl_or_eq_zero (ds : List UInt8) (z : UInt8) :
    ds.foldl (fun diff d => diff ||| d) z = 0 ↔ z = 0 ∧ ∀ d ∈ ds, d = 0 := by
  induction ds generalizing z with
  | nil => simp
  | cons d ds ih => rw [List.foldl_cons, ih, or_eq_zero]; simp [and_assoc]

private theorem zipWith_xor_zero {xs ys : List UInt8} (h : xs.length = ys.length) :
    (∀ d ∈ List.zipWith (fun x y => x ^^^ y) xs ys, d = 0) ↔ xs = ys := by
  induction xs generalizing ys with
  | nil => cases ys with
    | nil => simp
    | cons y ys => simp at h
  | cons x xs ih => cases ys with
    | nil => simp at h
    | cons y ys =>
      have := @ih ys (by simpa using h)
      simp only [List.zipWith_cons_cons, List.mem_cons, forall_eq_or_imp, this, List.cons.injEq,
        UInt8.xor_eq_zero_iff]

/-- **The constant-time comparison is equality.** -/
theorem sha256Equal_iff (a b : Digest) : sha256Equal a b = true ↔ a = b := by
  unfold sha256Equal
  rw [beq_iff_eq, foldl_or_eq_zero, zipWith_xor_zero (a.2.trans b.2.symm)]
  simp [Subtype.ext_iff]

end PicoBLE.Sha256
