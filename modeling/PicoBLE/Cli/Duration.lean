import PicoBLE.Cli.CmdGpio
import PicoBLE.Lib.Strtoul

/-!
# `cli/duration.c`

A duration is decimal digits with `ms`, `s` or nothing behind them, from 1 to
60000 milliseconds. The parser leaves the digits to `strtoul`, and looks at
what stands behind them and at the value. What may stand in front of them it
does not ask, so a blank or a sign gets through, and with a minus sign it is
the complement of the number that has to be small.
-/

namespace PicoBLE.Cli

open CString (Numeral ascii isDigit decimal strtoul)

/-- `cli_parse_duration_ms`, with its pointers: `*out_ms` afterwards, and what it returns. -/
def cliParseDuration (s : Option (List UInt8)) (outMs : Option Nat) : Option Nat × Bool :=
  match s, outMs with
  | some s, some out =>
    match cliParseDurationMs s with
    | none => (some out, false)
    | some ms => (some ms, true)
  | _, out => (out, false)

/-! ## The formats -/

/-- What may stand behind the digits. -/
inductive DurationUnit where
  | bare
  | ms
  | s
deriving DecidableEq, Repr

namespace DurationUnit

def text : DurationUnit → List UInt8
  | bare => []
  | ms => ascii "ms"
  | s => ascii "s"

/-- In milliseconds. -/
def factor : DurationUnit → Nat
  | bare => 1
  | ms => 1
  | s => 1000

theorem text_head (u : DurationUnit) : ∀ c ∈ u.text.head?, isDigit c = false := by
  intro c hc
  cases u with
  | bare => exact absurd hc (by simp [text])
  | ms => rw [← Option.some.inj hc]; rfl
  | s => rw [← Option.some.inj hc]; rfl

end DurationUnit

/-- Decimal digits and a suffix, that come to 1..60000 milliseconds. -/
def IsDuration (s : List UInt8) (ms : Nat) : Prop :=
  ∃ (ds : List UInt8) (u : DurationUnit), s = ds ++ u.text ∧ ds ≠ [] ∧
  (∀ d ∈ ds, isDigit d = true) ∧
    ms = decimal ds * u.factor ∧ 1 ≤ ms ∧ ms ≤ 60000

/-- A number with blanks or a sign in front of it, and a suffix, that come to 1..60000
milliseconds when the number is an `unsigned long`. -/
def LedDuration (s : List UInt8) : Prop :=
  ∃ (n : Numeral) (u : DurationUnit), n.lead ≠ [] ∧ s = n.text ++ u.text ∧
    1 ≤ n.value * u.factor ∧ n.value * u.factor ≤ 60000

/-- The parser takes the formats and nothing else, and leaves `*out_ms` alone when it refuses. -/
def ParsesExactly (s : List UInt8) : Prop :=
  ∀ out, (∃ ms, IsDuration s ms ∧ cliParseDuration (some s) (some out) = (some ms, true)) ∨
    (∀ ms, ¬ IsDuration s ms) ∧ cliParseDuration (some s) (some out) = (some out, false)

/-! ## What the parser takes -/

/-- The part behind `strtoul`. -/
theorem durationUnit_cases {v : Nat} {r : List UInt8} {ms : Nat}
    (h : ((if r = [] ∨ r = ascii "ms" then some v
      else if r = ascii "s" then if v > durationMaxMs / 1000 then none else some (v * 1000)
      else none).filter fun ms => ms ≠ 0 ∧ ms ≤ durationMaxMs) = some ms) :
    ∃ u : DurationUnit, r = u.text ∧ ms = v * u.factor ∧ 1 ≤ ms ∧ ms ≤ 60000 := by
  obtain ⟨hms, hrange⟩ := Option.filter_eq_some_iff.mp h
  have hle : 1 ≤ ms ∧ ms ≤ 60000 := by
    have hlimits : ms ≠ 0 ∧ ms ≤ 60 * 1000 := of_decide_eq_true hrange
    omega
  split at hms
  · next hbare =>
    obtain rfl := Option.some.inj hms
    rcases hbare with hr | hr
    · exact ⟨.bare, hr, (Nat.mul_one v).symm, hle⟩
    · exact ⟨.ms, hr, (Nat.mul_one v).symm, hle⟩
  · split at hms
    · next hr =>
      split at hms
      · exact absurd hms (by simp)
      · exact ⟨.s, hr, (Option.some.inj hms).symm, hle⟩
    · exact absurd hms (by simp)

/-- **What is accepted**: a number as `strtoul` reads it, and a suffix. -/
theorem cliParseDurationMs_iff (s : List UInt8) (ms : Nat) :
    cliParseDurationMs s = some ms ↔ ∃ (n : Numeral) (u : DurationUnit), s = n.text ++ u.text ∧
      ms = n.value * u.factor ∧ 1 ≤ ms ∧ ms ≤ 60000 := by
  constructor
  · intro h
    unfold cliParseDurationMs at h
    split at h
    · exact absurd h (by simp)
    · cases hnum : CString.hasNumber s with
      | false => rw [CString.strtoul_stays hnum] at h; exact absurd h (by simp)
      | true =>
        obtain ⟨n, r, hs, -, hread⟩ := CString.strtoul_reads hnum
        rw [hread] at h
        dsimp only at h
        split at h
        · exact absurd h (by simp)
        · obtain ⟨u, rfl, hms⟩ := durationUnit_cases h
          exact ⟨n, u, hs, hms⟩
  · rintro ⟨n, u, rfl, rfl, hpos, hle⟩
    have hne : n.text ++ u.text ≠ [] := fun h => n.text_ne_nil (List.append_eq_nil_iff.mp h).1
    have hstop : u.text ≠ n.text ++ u.text :=
      fun h => n.text_ne_nil (List.append_left_eq_self.mp h.symm)
    unfold cliParseDurationMs
    rw [if_neg hne, CString.strtoul_numeral n u.text_head]
    dsimp only
    rw [if_neg hstop, Option.filter_eq_some_iff]
    cases u with
    | bare =>
      simp only [DurationUnit.factor, Nat.mul_one] at hpos hle ⊢
      exact ⟨rfl, decide_eq_true ⟨by omega, hle⟩⟩
    | ms =>
      simp only [DurationUnit.factor, Nat.mul_one] at hpos hle ⊢
      exact ⟨rfl, decide_eq_true ⟨by omega, hle⟩⟩
    | s =>
      simp only [DurationUnit.factor] at hpos hle ⊢
      have hsmall : ¬ n.value > durationMaxMs / 1000 := by
        show ¬ n.value > 60
        omega
      refine ⟨?_, decide_eq_true ⟨by omega, hle⟩⟩
      rw [if_neg (by decide), if_pos (show DurationUnit.s.text = ascii "s" from rfl), if_neg hsmall]

/-- A duration is read as such. -/
theorem IsDuration.parses {s : List UInt8} {ms : Nat} (h : IsDuration s ms) :
    cliParseDurationMs s = some ms := by
  obtain ⟨ds, u, rfl, hne, hd, rfl, hpos, hle⟩ := h
  have hfactor : 1 ≤ u.factor := by cases u <;> decide
  have hsmall : decimal ds < 2 ^ 32 := by
    have hmul := Nat.le_mul_of_pos_right (decimal ds) hfactor
    omega
  have hvalue : (Numeral.ofDigits ds hd hne).value = decimal ds := Numeral.value_ofDigits hsmall
  exact (cliParseDurationMs_iff _ _).mpr ⟨.ofDigits ds hd hne, u, rfl, by rw [hvalue], hpos, hle⟩

/-- A duration begins with a digit. -/
theorem IsDuration.head {s : List UInt8} {ms : Nat} (h : IsDuration s ms) :
    ∃ c ∈ s.head?, isDigit c = true := by
  obtain ⟨ds, u, rfl, hne, hd, -⟩ := h
  obtain ⟨c, ds, rfl⟩ := List.exists_cons_of_ne_nil hne
  exact ⟨c, rfl, hd c List.mem_cons_self⟩

/-- What is accepted is a duration, or has something in front. -/
theorem parses_cases {s : List UInt8} {ms : Nat} (h : cliParseDurationMs s = some ms) :
    IsDuration s ms ∨ LedDuration s := by
  obtain ⟨n, u, rfl, rfl, hpos, hle⟩ := (cliParseDurationMs_iff _ _).mp h
  by_cases hlead : n.lead = []
  · have hfactor : 1 ≤ u.factor := by cases u <;> decide
    have hsmall : n.value < 2 ^ 32 - 1 := by
      have hmul := Nat.le_mul_of_pos_right n.value hfactor
      omega
    have hvalue := Numeral.value_plain hlead hsmall
    refine .inl ⟨n.digits, u, ?_, n.nonempty, n.digit, ?_, hpos, hle⟩
    · rw [Numeral.text_plain hlead]
    · rw [hvalue]
  · exact .inr ⟨n, u, hlead, rfl, hpos, hle⟩

/-- **The parser takes exactly its formats**, but for numbers with something in front of them. -/
theorem duration_exact (s : List UInt8) : ParsesExactly s ↔ ¬ LedDuration s := by
  constructor
  · rintro h ⟨n, u, hlead, rfl, hpos, hle⟩
    have hno : ∀ ms, ¬ IsDuration (n.text ++ u.text) ms := by
      intro ms hd
      obtain ⟨c, hc, hdigit⟩ := hd.head
      exact absurd (hdigit.symm.trans (Numeral.head_lead hlead _ c hc)) (by decide)
    have hms : cliParseDurationMs (n.text ++ u.text) = some (n.value * u.factor) :=
      (cliParseDurationMs_iff _ _).mpr ⟨n, u, rfl, rfl, hpos, hle⟩
    rcases h 0 with ⟨ms, hd, -⟩ | ⟨-, hrefused⟩
    · exact hno ms hd
    · rw [cliParseDuration, hms] at hrefused
      exact absurd hrefused (by simp)
  · intro hled out
    cases hp : cliParseDurationMs s with
    | some ms =>
      rcases parses_cases hp with hd | hd
      · exact .inl ⟨ms, hd, by rw [cliParseDuration, hp]⟩
      · exact absurd hd hled
    | none =>
      refine .inr ⟨fun ms hd => ?_, by rw [cliParseDuration, hp]⟩
      exact absurd (hp.symm.trans hd.parses) (by simp)

/-- The complement of 500. -/
theorem minus_accepted : ¬ ParsesExactly (ascii "-4294966796ms") := by
  intro h
  have hparse : cliParseDuration (some (ascii "-4294966796ms")) (some 0) = (some 500, true) := by
    decide
  rcases h 0 with ⟨ms, hd, -⟩ | ⟨-, hrefused⟩
  · obtain ⟨c, hc, hdigit⟩ := hd.head
    obtain rfl := Option.some.inj hc
    exact absurd hdigit (by decide)
  · exact absurd (hparse.symm.trans hrefused) (by decide)

end PicoBLE.Cli
