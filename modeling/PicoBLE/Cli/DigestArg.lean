import PicoBLE.Cli.CmdOta
import PicoBLE.Ota.HexDigest

/-!
# The digest argument of `ota download`

`cmd_download` has the argument parsed unless it is empty. The parser reads
characters in pairs, so an argument that ends too early at an even length,
with nothing but digits before, has it read behind the NUL.
-/

namespace PicoBLE.Cli

open CString (ascii isXdigit)
open PicoBLE.Sha256

/-- `sha_hex && *sha_hex`, and the call of `sha256_parse_hex`; `none` is a read behind the NUL. -/
def parseExpectedChecked (shaHex : Option (List UInt8)) : Option (Option (Option Digest)) :=
  match shaHex with
  | none => some (some none)
  | some hex =>
    match readAt hex 0 with
    | none => none
    | some c =>
      if c = 0 then some (some none)
      else (sha256ParseHexChecked hex).map fun d => d.map some

/-- The reads make no difference to what is parsed. -/
theorem parseExpectedChecked_some {shaHex : Option (List UInt8)} {r : Option (Option Digest)}
    (hnul : ∀ hex ∈ shaHex, 0 ∉ hex) (h : parseExpectedChecked shaHex = some r) :
    r = parseExpected shaHex := by
  cases shaHex with
  | none => exact (Option.some.inj h).symm
  | some hex =>
    cases hex with
    | nil => exact (Option.some.inj h).symm
    | cons c hex =>
      have hc : c ≠ 0 := fun h0 => hnul _ rfl (h0 ▸ List.mem_cons_self)
      rw [parseExpectedChecked, readAt_some (Nat.zero_le _)] at h
      dsimp only at h
      rw [if_neg (show ¬ (c :: hex).getD 0 0 = 0 from hc)] at h
      rcases sha256ParseHexChecked_cases (c :: hex) with ⟨hout, -⟩ | ⟨hin, -⟩
      · rw [hout] at h
        exact absurd h (by simp)
      · rw [hin] at h
        exact (Option.some.inj h).symm

/-- **Where the parser reads**: inside the argument, but for an even number of digits that is too
small. -/
theorem digest_reads (shaHex : Option (List UInt8)) :
    parseExpectedChecked shaHex ≠ none ↔
      ¬ ∃ hex, shaHex = some hex ∧ hex ≠ [] ∧ hex.length % 2 = 0 ∧ hex.length < 64 ∧
      ∀ c ∈ hex, isXdigit c = true := by
  cases shaHex with
  | none =>
    exact ⟨fun _ ⟨hex, hsome, _⟩ => absurd hsome (by simp), fun _ => by simp [parseExpectedChecked]⟩
  | some hex =>
    rw [parseExpectedChecked, readAt_some (Nat.zero_le _)]
    dsimp only
    split
    · next hzero =>
      refine ⟨fun _ => ?_, fun _ => by simp⟩
      rintro ⟨hex', hsome, hne, -, -, hdigits⟩
      obtain rfl := Option.some.inj hsome
      obtain ⟨c, hex, rfl⟩ := List.exists_cons_of_ne_nil hne
      obtain rfl : c = 0 := hzero
      exact absurd (hdigits 0 List.mem_cons_self) (by decide)
    · next hchar =>
      have hne : hex ≠ [] := by
        rintro rfl
        exact hchar rfl
      rcases sha256ParseHexChecked_cases hex with ⟨hout, k, hk, hlen, hdigits⟩ | ⟨hin, hno⟩
      · rw [hout]
        refine ⟨fun h => absurd rfl h, fun h => ?_⟩
        exact absurd ⟨hex, rfl, hne, by omega, by omega, hdigits⟩ h
      · rw [hin]
        refine ⟨fun _ => ?_, fun _ => by simp⟩
        rintro ⟨hex', hsome, -, heven, hshort, hdigits⟩
        obtain rfl := Option.some.inj hsome
        exact hno (hex.length / 2) (by omega) ⟨by omega, hdigits⟩

/-- Two digits. -/
theorem twoDigits_overread :
    otaSub [ascii "ota", ascii "download", ascii "http://pi/a.bin", ascii "ab"] =
      .download (some (ascii "ab")) ∧
      parseExpectedChecked (some (ascii "ab")) = none := by decide

end PicoBLE.Cli
