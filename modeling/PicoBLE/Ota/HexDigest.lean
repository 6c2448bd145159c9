import PicoBLE.Lib.Buffer
import PicoBLE.Ota.Sha256

/-!
# Digests as hexadecimal text, of `sha256.c`

The parser takes 32 pairs of digits and then asks for the NUL; the formatter
writes 32 pairs in lower case. The parser reads both characters of a pair
before it looks at the first, so in a string that ends where a pair begins the
second read is behind the NUL.
-/

namespace PicoBLE.Sha256

open CString (ascii isXdigit toLower)

/-! ## Formatting -/

/-- `lut`. -/
def hexLut : List UInt8 := ascii "0123456789abcdef"

/-- `buf[i * 2]` and `buf[i * 2 + 1]`. -/
def hexPair (b : UInt8) : List UInt8 :=
  [hexLut.getD ((b >>> 4) &&& 0xF).toNat 0, hexLut.getD (b &&& 0xF).toNat 0]

theorem hexPairs_length (bs : List UInt8) : (bs.flatMap hexPair).length = 2 * bs.length := by
  induction bs with
  | nil => rfl
  | cons b bs ih =>
    rw [List.flatMap_cons, List.length_append, ih, List.length_cons]
    show 2 + _ = _
    omega

/-- `sha256_format_hex`: the 65 bytes of `buf`. -/
def sha256FormatHex (d : Digest) : Buffer 65 :=
  ⟨d.1.flatMap hexPair ++ [0], by rw [List.length_append, hexPairs_length, d.2]; rfl⟩

/-! ## Digits -/

/-- A digit is looked up in lower case, and anything else is refused. -/
theorem hexNibble_spec (c : UInt8) :
    (hexNibble c).isSome = isXdigit c ∧ ∀ x ∈ hexNibble c, x < 16 ∧
    hexLut.getD x.toNat 0 = toLower c :=
  CString.forall_char
    (P := fun c => (hexNibble c).isSome = isXdigit c ∧
      ∀ x ∈ hexNibble c, x < 16 ∧ hexLut.getD x.toNat 0 = toLower c) (by decide +kernel) c

/-- The two digits of a byte. -/
theorem hexPair_spec (b : UInt8) : ∃ hi lo, hexPair b = [hi, lo] ∧
    (hexNibble hi).bind (fun x => (hexNibble lo).map fun y => x <<< 4 ||| y) = some b ∧
    toLower hi = hi ∧ toLower lo = lo ∧ hi ≠ 0 ∧ lo ≠ 0 := by
  refine ⟨_, _, rfl, ?_⟩
  revert b
  refine CString.forall_char ?_
  decide +kernel

theorem hexPair_nibbles {x y : UInt8} (hx : x < 16) (hy : y < 16) :
    hexPair (x <<< 4 ||| y) = [hexLut.getD x.toNat 0, hexLut.getD y.toNat 0] := by
  have hall : ∀ i j : Fin 16, hexPair (UInt8.ofNat i <<< 4 ||| UInt8.ofNat j) =
      [hexLut.getD i 0, hexLut.getD j 0] := by decide +kernel
  have h := hall ⟨x.toNat, UInt8.lt_iff_toNat_lt.mp hx⟩ ⟨y.toNat, UInt8.lt_iff_toNat_lt.mp hy⟩
  rwa [UInt8.ofNat_toNat, UInt8.ofNat_toNat] at h

/-! ## Parsing -/

/-- A character of the string, which ends at its NUL. -/
theorem getD_length_le {hex : List UInt8} {i : Nat} (h : hex.length ≤ i) : hex.getD i 0 = 0 := by
  rw [List.getD_eq_getElem?_getD, List.getElem?_eq_none h]
  rfl

/-- Two more characters. -/
theorem take_pair {hex : List UInt8} {n : Nat} (h : 2 * (n + 1) ≤ hex.length) :
    hex.take (2 * (n + 1)) = hex.take (2 * n) ++ [hex.getD (n * 2) 0, hex.getD (n * 2 + 1) 0] := by
  have hget : ∀ i, i < hex.length → hex[i]? = some (hex.getD i 0) := by
    intro i hi
    rw [List.getD_eq_getElem?_getD, List.getElem?_eq_getElem hi]
    rfl
  rw [show 2 * (n + 1) = n * 2 + 1 + 1 by omega, List.take_add_one, List.take_add_one,
    hget _ (by omega), hget _ (by omega), Nat.mul_comm 2 n, List.append_assoc]
  rfl

/-- **The pairs that have been read** were digits, and what they come to is formatted in lower
case. -/
theorem parseHexBytes_some {hex : List UInt8} {n : Nat} {bs : { bs : List UInt8 // bs.length = n }}
    (h : parseHexBytes hex n = some bs) :
    2 * n ≤ hex.length ∧ (∀ c ∈ hex.take (2 * n), isXdigit c = true) ∧
      bs.1.flatMap hexPair = (hex.take (2 * n)).map toLower := by
  induction n with
  | zero =>
    obtain rfl := Option.some.inj h
    exact ⟨Nat.zero_le _, List.forall_mem_nil _, rfl⟩
  | succ n ih =>
    rw [parseHexBytes] at h
    split at h
    · next bs' hi lo hbs hhi hlo =>
      obtain rfl := Option.some.inj h
      obtain ⟨hle, hdigits, hpairs⟩ := ih hbs
      -- the NUL is no digit, so the string goes on behind the pair
      have hlen : 2 * (n + 1) ≤ hex.length := by
        by_contra hshort
        rw [getD_length_le (show hex.length ≤ n * 2 + 1 by omega)] at hlo
        exact absurd (hlo.symm.trans (show hexNibble 0 = none by decide)) (by simp)
      obtain ⟨hhix, hhib⟩ := hexNibble_spec (hex.getD (n * 2) 0)
      obtain ⟨hlox, hlob⟩ := hexNibble_spec (hex.getD (n * 2 + 1) 0)
      rw [hhi] at hhix hhib
      rw [hlo] at hlox hlob
      obtain ⟨hhilt, hhilut⟩ := hhib _ rfl
      obtain ⟨hlolt, hlolut⟩ := hlob _ rfl
      rw [take_pair hlen]
      refine ⟨hlen, List.forall_mem_append.mpr ⟨hdigits, ?_⟩, ?_⟩
      · exact List.forall_mem_cons.mpr ⟨hhix.symm, List.forall_mem_cons.mpr ⟨hlox.symm,
          List.forall_mem_nil _⟩⟩
      · rw [List.map_append, ← hpairs, List.flatMap_append, List.flatMap_singleton,
          hexPair_nibbles hhilt hlolt, hhilut, hlolut]
        rfl
    · exact absurd h (by simp)

/-- Digits are read. -/
theorem parseHexBytes_digits {hex : List UInt8} {n : Nat} (hlen : 2 * n ≤ hex.length)
    (hdigits : ∀ c ∈ hex.take (2 * n), isXdigit c = true) :
    ∃ bs, parseHexBytes hex n = some bs := by
  induction n with
  | zero => exact ⟨_, rfl⟩
  | succ n ih =>
    rw [take_pair hlen] at hdigits
    obtain ⟨hbefore, hpair⟩ := List.forall_mem_append.mp hdigits
    obtain ⟨bs, hbs⟩ := ih (by omega) hbefore
    have hdigit : ∀ c, isXdigit c = true → ∃ x, hexNibble c = some x := by
      intro c hc
      exact Option.isSome_iff_exists.mp ((hexNibble_spec c).1.trans hc)
    obtain ⟨hi, hhi⟩ := hdigit _ (hpair _ List.mem_cons_self)
    obtain ⟨lo, hlo⟩ := hdigit _ (hpair _ (List.mem_cons_of_mem _ List.mem_cons_self))
    rw [parseHexBytes, hbs, hhi, hlo]
    exact ⟨_, rfl⟩

/-- The character that has to be the NUL. -/
theorem getD_eq_zero {hex : List UInt8} (hnul : 0 ∉ hex) {i : Nat} : hex.getD i 0 = 0 ↔
    hex.length ≤ i := by
  refine ⟨fun h => ?_, getD_length_le⟩
  by_contra hlt
  have hmem : hex.getD i 0 ∈ hex := by
    rw [List.getD_eq_getElem _ _ (Nat.lt_of_not_le hlt)]
    exact List.getElem_mem _
  exact hnul (h ▸ hmem)

/-- **What is accepted**: 64 digits, which the digest is formatted as in lower case. -/
theorem sha256ParseHex_some {hex : List UInt8} (hnul : 0 ∉ hex) {d : Digest}
    (h : sha256ParseHex hex = some d) :
    hex.length = 64 ∧ (∀ c ∈ hex, isXdigit c = true) ∧ d.1.flatMap hexPair = hex.map toLower := by
  unfold sha256ParseHex at h
  split at h
  · next d' hd =>
    split at h
    · next hend =>
      obtain rfl := Option.some.inj h
      obtain ⟨hle, hdigits, hpairs⟩ := parseHexBytes_some hd
      have hmax := (getD_eq_zero hnul).mp hend
      have htake : hex.take (2 * 32) = hex := List.take_of_length_le hmax
      rw [htake] at hdigits hpairs
      exact ⟨Nat.le_antisymm hmax hle, hdigits, hpairs⟩
    · exact absurd h (by simp)
  · exact absurd h (by simp)

theorem sha256ParseHex_digits {hex : List UInt8} (hlen : hex.length = 64)
    (hdigits : ∀ c ∈ hex, isXdigit c = true) :
    ∃ d, sha256ParseHex hex = some d := by
  obtain ⟨d, hd⟩ := @parseHexBytes_digits hex 32 (Nat.le_of_eq hlen.symm)
    fun c hc => hdigits c (List.mem_of_mem_take hc)
  refine ⟨d, ?_⟩
  unfold sha256ParseHex
  rw [hd]
  exact if_pos (getD_length_le (Nat.le_of_eq hlen))

/-! ## Round trips -/

/-- Two bytes that are formatted alike are the same. -/
theorem hexPair_injective {a b : UInt8} (h : hexPair a = hexPair b) : a = b := by
  obtain ⟨hi, lo, hpair, hread, -⟩ := hexPair_spec a
  obtain ⟨hi', lo', hpair', hread', -⟩ := hexPair_spec b
  obtain ⟨rfl, rfl, -⟩ : hi = hi' ∧ lo = lo' ∧ True := by
    rw [hpair, hpair'] at h
    obtain ⟨hhi, hlo⟩ := List.cons.inj h
    exact ⟨hhi, (List.cons.inj hlo).1, trivial⟩
  exact Option.some.inj (hread.symm.trans hread')

theorem hexPairs_injective {as bs : List UInt8} (h : as.flatMap hexPair = bs.flatMap hexPair) :
    as = bs := by
  induction as generalizing bs with
  | nil =>
    have hlen := congrArg List.length h
    rw [hexPairs_length, hexPairs_length] at hlen
    exact (List.length_eq_zero_iff.mp (by simpa using hlen.symm)).symm
  | cons a as ih =>
    cases bs with
    | nil => exact absurd h (by simp [hexPair])
    | cons b bs =>
      rw [List.flatMap_cons, List.flatMap_cons] at h
      obtain ⟨hhead, htail⟩ := List.append_inj h rfl
      rw [hexPair_injective hhead, ih htail]

/-- What is written is lower-case digits. -/
theorem hexPairs_digits (bs : List UInt8) :
    ∀ c ∈ bs.flatMap hexPair, isXdigit c = true ∧ toLower c = c ∧ c ≠ 0 := by
  intro c hc
  obtain ⟨b, -, hb⟩ := List.mem_flatMap.mp hc
  obtain ⟨hi, lo, hpair, hread, hhi, hlo, hhi0, hlo0⟩ := hexPair_spec b
  obtain ⟨x, hx, hread⟩ := Option.bind_eq_some_iff.mp hread
  obtain ⟨y, hy, -⟩ := Option.map_eq_some_iff.mp hread
  rw [hpair] at hb
  rcases List.mem_cons.mp hb with rfl | hb
  · exact ⟨(hexNibble_spec c).1.symm.trans (by rw [hx]; rfl), hhi, hhi0⟩
  · obtain rfl := List.mem_singleton.mp hb
    exact ⟨(hexNibble_spec c).1.symm.trans (by rw [hy]; rfl), hlo, hlo0⟩

theorem formatHex_str (d : Digest) : (sha256FormatHex d).str 0 = d.1.flatMap hexPair :=
  CString.ofBuffer_append (fun h => (hexPairs_digits d.1 0 h).2.2 rfl) []

/-- **The codec**: exactly 64 digits are accepted, in either case; a digest that is formatted is
parsed again; and what is parsed is formatted in lower case. -/
theorem hex_codec {hex : List UInt8} (hnul : 0 ∉ hex) :
    ((sha256ParseHex hex).isSome = true ↔ hex.length = 64 ∧ ∀ c ∈ hex, isXdigit c = true) ∧
      (∀ d : Digest, sha256ParseHex ((sha256FormatHex d).str 0) = some d) ∧
      ∀ d, sha256ParseHex hex = some d → (sha256FormatHex d).str 0 = hex.map toLower := by
  refine ⟨⟨fun h => ?_, fun h => ?_⟩, fun d => ?_, fun d hd => ?_⟩
  · obtain ⟨d, hd⟩ := Option.isSome_iff_exists.mp h
    obtain ⟨hlen, hdigits, -⟩ := sha256ParseHex_some hnul hd
    exact ⟨hlen, hdigits⟩
  · obtain ⟨d, hd⟩ := sha256ParseHex_digits h.1 h.2
    rw [hd]
    rfl
  · have hpairs := hexPairs_digits d.1
    have hlen : (d.1.flatMap hexPair).length = 64 := by rw [hexPairs_length, d.2]
    rw [formatHex_str]
    obtain ⟨d', hd'⟩ := sha256ParseHex_digits hlen fun c hc => (hpairs c hc).1
    obtain ⟨-, -, hback⟩ := sha256ParseHex_some (fun h => (hpairs 0 h).2.2 rfl) hd'
    have hlower : (d.1.flatMap hexPair).map toLower = d.1.flatMap hexPair :=
      (List.map_congr_left fun c hc => (hpairs c hc).2.1).trans (List.map_id _)
    rw [hlower] at hback
    rw [hd', Subtype.ext (hexPairs_injective hback)]
  · rw [formatHex_str]
    exact (sha256ParseHex_some hnul hd).2.2

/-- A digest of ten letters and zeros. -/
theorem mixedCase_codec : (sha256ParseHex (ascii "ABCDEFabcd" ++ List.replicate 54 48)).isSome =
    true ∧
    ∀ d, sha256ParseHex (ascii "ABCDEFabcd" ++ List.replicate 54 48) = some d →
      (sha256FormatHex d).str 0 = ascii "abcdefabcd" ++ List.replicate 54 48 := by
  obtain ⟨haccept, -, hlower⟩ :=
    @hex_codec (ascii "ABCDEFabcd" ++ List.replicate 54 48) (by decide +kernel)
  refine ⟨haccept.mpr ⟨by decide +kernel, by decide +kernel⟩, fun d hd => (hlower d hd).trans ?_⟩
  decide +kernel

/-! ## What the parser reads

Every read is checked against the end of the string, and `none` is a read behind its NUL.
-/

/-- `hex[i]`, up to the NUL. -/
def readAt (hex : List UInt8) (i : Nat) : Option UInt8 := (hex ++ [0])[i]?

/-- `out[i] = b`, when the bytes in front are there. -/
def pushByte {n : Nat} (bs : { bs : List UInt8 // bs.length = n }) (b : UInt8) :
    { bs : List UInt8 // bs.length = n + 1 } :=
  ⟨bs.1 ++ [b], by rw [List.length_append, bs.2, List.length_singleton]⟩

/-- The loop of `sha256_parse_hex`: both characters are read before one of them is tested. -/
def parseHexBytesChecked (hex : List UInt8) :
    (n : Nat) → Option (Option { bs : List UInt8 // bs.length = n })
  | 0 => some (some ⟨[], List.length_nil⟩)
  | n + 1 =>
    match parseHexBytesChecked hex n with
    | none => none
    -- it has returned
    | some none => some none
    | some (some bs) =>
      match readAt hex (n * 2), readAt hex (n * 2 + 1) with
      | some h, some l =>
        match hexNibble h, hexNibble l with
        | some hi, some lo => some (some (pushByte bs (hi <<< 4 ||| lo)))
        | _, _ => some none
      | _, _ => none

/-- `sha256_parse_hex`. -/
def sha256ParseHexChecked (hex : List UInt8) : Option (Option Digest) :=
  match parseHexBytesChecked hex 32 with
  | none => none
  | some none => some none
  | some (some d) => (readAt hex 64).map fun c => if c = 0 then some d else none

theorem readAt_some {hex : List UInt8} {i : Nat} (h : i ≤ hex.length) :
    readAt hex i = some (hex.getD i 0) := by
  unfold readAt
  rcases Nat.lt_or_eq_of_le h with hlt | rfl
  · rw [List.getElem?_append_left hlt, List.getElem?_eq_getElem hlt, List.getD_eq_getElem _ _ hlt]
  · rw [List.getElem?_append_right (Nat.le_refl _), Nat.sub_self, getD_length_le (Nat.le_refl _)]
    rfl

theorem readAt_none {hex : List UInt8} {i : Nat} (h : hex.length < i) : readAt hex i = none := by
  refine List.getElem?_eq_none ?_
  rw [List.length_append, List.length_singleton]
  exact h

/-- The string is that many pairs of digits. -/
def Pairs (hex : List UInt8) (k : Nat) : Prop := hex.length = 2 * k ∧ ∀ c ∈ hex, isXdigit c = true

/-- **The loop runs over the end** of a string of pairs, and of no other. -/
theorem parseHexBytesChecked_cases (hex : List UInt8) (n : Nat) :
    (parseHexBytesChecked hex n = none ∧ ∃ k < n, Pairs hex k) ∨
      parseHexBytesChecked hex n = some (parseHexBytes hex n) ∧ ∀ k < n, ¬ Pairs hex k := by
  induction n with
  | zero => exact .inr ⟨rfl, fun k hk => absurd hk (Nat.not_lt_zero k)⟩
  | succ n ih =>
    rw [parseHexBytesChecked, parseHexBytes]
    rcases ih with ⟨hout, k, hk, hpairs⟩ | ⟨hin, hno⟩
    · rw [hout]
      exact .inl ⟨rfl, k, Nat.lt_succ_of_lt hk, hpairs⟩
    · have hstep : ¬ Pairs hex n → ∀ k < n + 1, ¬ Pairs hex k := by
        intro hn k hk
        rcases Nat.lt_or_eq_of_le (Nat.le_of_lt_succ hk) with hlt | rfl
        · exact hno k hlt
        · exact hn
      rw [hin]
      cases hbs : parseHexBytes hex n with
      | none =>
        refine .inr ⟨rfl, hstep fun hpairs => ?_⟩
        obtain ⟨bs, hsome⟩ := @parseHexBytes_digits hex n (Nat.le_of_eq hpairs.1.symm)
          fun c hc => hpairs.2 c (List.mem_of_mem_take hc)
        exact absurd (hbs.symm.trans hsome) (by simp)
      | some bs =>
        obtain ⟨hle, hdigits, -⟩ := parseHexBytes_some hbs
        dsimp only
        rw [readAt_some (show n * 2 ≤ hex.length by omega)]
        rcases Nat.lt_or_eq_of_le hle with hlt | hend
        · -- there is a character at least, and behind it the NUL
          rw [readAt_some (show n * 2 + 1 ≤ hex.length by omega)]
          refine .inr ⟨?_, hstep fun hpairs => absurd hpairs.1 (by omega)⟩
          dsimp only
          cases hexNibble (hex.getD (n * 2) 0) with
          | none => rfl
          | some hi => cases hexNibble (hex.getD (n * 2 + 1) 0) <;> rfl
        · -- the NUL is the first of the pair
          rw [readAt_none (show hex.length < n * 2 + 1 by omega)]
          refine .inl ⟨rfl, n, Nat.lt_succ_self n, hend.symm, fun c hc => hdigits c ?_⟩
          rwa [List.take_of_length_le (Nat.le_of_eq hend.symm)]

/-- **All reads are inside the string**, and then the checks make no difference, unless it is fewer
than 32 pairs of digits. -/
theorem sha256ParseHexChecked_cases (hex : List UInt8) :
    (sha256ParseHexChecked hex = none ∧ ∃ k < 32, Pairs hex k) ∨
      sha256ParseHexChecked hex = some (sha256ParseHex hex) ∧ ∀ k < 32, ¬ Pairs hex k := by
  unfold sha256ParseHexChecked sha256ParseHex
  rcases parseHexBytesChecked_cases hex 32 with ⟨hout, hpairs⟩ | ⟨hin, hno⟩
  · rw [hout]
    exact .inl ⟨rfl, hpairs⟩
  · rw [hin]
    refine .inr ⟨?_, hno⟩
    cases hd : parseHexBytes hex 32 with
    | none => rfl
    | some d =>
      dsimp only
      rw [readAt_some (parseHexBytes_some hd).1]
      rfl

end PicoBLE.Sha256
