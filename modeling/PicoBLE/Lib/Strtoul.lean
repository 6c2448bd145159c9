import PicoBLE.Lib.CString

/-!
# What `strtoul` reads

`strtoul` takes more than digits: blanks in front, and a sign. A minus sign
negates the number in the type `unsigned long`, so what it reads there is the
complement, and a number that is too large is read as the largest there is.
Callers that expect digits and look at the value alone accept all of that.
-/

namespace CString

/-- The signs. -/
inductive Sign where
  | none
  | plus
  | minus
deriving DecidableEq, Repr

def Sign.text : Sign → List UInt8
  | .none => []
  | .plus => [43]
  | .minus => [45]

/-- A number as `strtoul` reads it. -/
structure Numeral where
  blanks : List UInt8
  sign : Sign
  digits : List UInt8
  blank : ∀ b ∈ blanks, isSpace b = true
  digit : ∀ d ∈ digits, isDigit d = true
  nonempty : digits ≠ []

namespace Numeral

/-- What stands in front of the digits. -/
def lead (n : Numeral) : List UInt8 := n.blanks ++ n.sign.text

def text (n : Numeral) : List UInt8 := n.lead ++ n.digits

/-- The value, in an `unsigned long`. -/
def value (n : Numeral) : Nat :=
  if 2 ^ 32 ≤ decimal n.digits then 2 ^ 32 - 1
  else if n.sign = .minus then (2 ^ 32 - decimal n.digits) % 2 ^ 32
  else decimal n.digits

/-- Digits alone. -/
def ofDigits (ds : List UInt8) (hd : ∀ d ∈ ds, isDigit d = true) (hne : ds ≠ []) : Numeral where
  blanks := []
  sign := .none
  digits := ds
  blank := List.forall_mem_nil _
  digit := hd
  nonempty := hne

variable {n : Numeral}

/-- Without anything in front of them the digits are what they spell. -/
theorem text_plain (h : n.lead = []) : n.text = n.digits := by rw [text, h, List.nil_append]

theorem sign_plain (h : n.lead = []) : n.sign = .none := by
  have hsign := (List.append_eq_nil_iff.mp h).2
  cases hs : n.sign with
  | none => rfl
  | plus => rw [hs] at hsign; exact absurd hsign (by decide)
  | minus => rw [hs] at hsign; exact absurd hsign (by decide)

/-- The value of digits, unless it is too large. -/
theorem value_plain (h : n.lead = []) (hlt : n.value < 2 ^ 32 - 1) :
    n.value = decimal n.digits := by
  have hsign := sign_plain h
  unfold value at hlt ⊢
  rw [if_neg (show ¬ n.sign = .minus by rw [hsign]; decide)] at hlt ⊢
  split at hlt
  · exact absurd hlt (lt_irrefl _)
  · next hsmall => rw [if_neg hsmall]

theorem text_ne_nil (n : Numeral) : n.text ≠ [] :=
  fun h => n.nonempty (List.append_eq_nil_iff.mp h).2

theorem value_ofDigits {ds : List UInt8} {hd : ∀ d ∈ ds, isDigit d = true} {hne : ds ≠ []}
    (hv : decimal ds < 2 ^ 32) : (ofDigits ds hd hne).value = decimal ds := by
  show (if 2 ^ 32 ≤ decimal ds then _ else _) = _
  rw [if_neg (by omega)]
  rfl

/-- A blank or a sign is no digit. -/
theorem head_lead (h : n.lead ≠ []) (r : List UInt8) :
    ∀ c ∈ (n.text ++ r).head?, isDigit c = false := by
  intro c hc
  have hmem : c ∈ n.lead.head? := by
    obtain ⟨a, l, hl⟩ := List.exists_cons_of_ne_nil h
    rw [text, hl] at hc
    rw [hl]
    exact hc
  unfold lead at hmem
  cases hblanks : n.blanks with
  | nil =>
    rw [hblanks, List.nil_append] at hmem
    cases hs : n.sign with
    | none => rw [hs] at hmem; exact absurd hmem (by simp [Sign.text])
    | plus => rw [hs] at hmem; obtain rfl := Option.some.inj hmem; decide
    | minus => rw [hs] at hmem; obtain rfl := Option.some.inj hmem; decide
  | cons b bs =>
    rw [hblanks] at hmem
    obtain rfl := Option.some.inj hmem
    have hb := n.blank b (hblanks ▸ List.mem_cons_self)
    cases hd : isDigit b with
    | false => rfl
    | true => exact absurd (hb.symm.trans (isDigit_not_space hd)) (by decide)

end Numeral

/-! ## Soundness -/

/-- The digits of a string. -/
theorem digits_split (s : List UInt8) :
    s = s.takeWhile isDigit ++ s.dropWhile isDigit ∧ (∀ d ∈ s.takeWhile isDigit, isDigit d = true) ∧
      ∀ c ∈ (s.dropWhile isDigit).head?, isDigit c = false := by
  refine ⟨List.takeWhile_append_dropWhile.symm, fun d hd => List.mem_takeWhile_imp hd,
    fun c hc => ?_⟩
  have hhead := List.head?_dropWhile_not isDigit s
  rw [Option.mem_def.mp hc] at hhead
  simpa using hhead

/-- A sign is what `skipSign` passes over. -/
theorem skipSign_split (s : List UInt8) :
    ∃ sign : Sign, s = sign.text ++ skipSign s ∧ (negative s = true ↔ sign = .minus) := by
  unfold skipSign
  split
  · exact ⟨.plus, rfl, by simp [negative]⟩
  · exact ⟨.minus, rfl, by simp [negative]⟩
  · next hminus =>
    refine ⟨.none, rfl, ⟨fun h => ?_, fun h => absurd h Sign.noConfusion⟩⟩
    obtain ⟨t, ht⟩ := List.head?_eq_some_iff.mp (of_decide_eq_true h)
    exact absurd ht (hminus t)

/-- Without a number it stops where it began. -/
theorem strtoul_stays {s : List UInt8} (h : hasNumber s = false) : strtoul s = (0, s) := by
  have hnil : (skipSign (s.dropWhile isSpace)).takeWhile isDigit = [] := by
    simpa [hasNumber] using h
  rw [strtoul, hnil, if_pos rfl]

/-- **What `strtoul` reads is a number**, and it stops behind it. -/
theorem strtoul_reads {s : List UInt8} (h : hasNumber s = true) :
    ∃ (n : Numeral) (r : List UInt8), s = n.text ++ r ∧ (∀ c ∈ r.head?, isDigit c = false) ∧
      strtoul s = (n.value, r) := by
  obtain ⟨sign, hsign, hneg⟩ := skipSign_split (s.dropWhile isSpace)
  obtain ⟨hdigits, hdigit, hrest⟩ := digits_split (skipSign (s.dropWhile isSpace))
  have hne : (skipSign (s.dropWhile isSpace)).takeWhile isDigit ≠ [] := by simpa [hasNumber] using h
  refine ⟨⟨s.takeWhile isSpace, sign, _, fun b hb => List.mem_takeWhile_imp hb, hdigit, hne⟩,
    _, ?_, hrest, ?_⟩
  · show s = s.takeWhile isSpace ++ sign.text ++ _ ++ _
    rw [List.append_assoc, ← hdigits, List.append_assoc, ← hsign, List.takeWhile_append_dropWhile]
  · rw [strtoul, if_neg hne]
    unfold Numeral.value
    simp only [← hneg]

/-! ## Completeness -/

/-- Behind the blanks stands a sign or a digit. -/
theorem Numeral.dropBlanks (n : Numeral) (r : List UInt8) :
    (n.text ++ r).dropWhile isSpace = n.sign.text ++ n.digits ++ r := by
  obtain ⟨d, ds, hds⟩ := List.exists_cons_of_ne_nil n.nonempty
  have hd : isSpace d = false := isDigit_not_space (n.digit d (hds ▸ List.mem_cons_self))
  have hstop : (n.sign.text ++ n.digits ++ r).dropWhile isSpace = n.sign.text ++ n.digits ++ r := by
    rw [hds]
    cases n.sign with
    | none => exact List.dropWhile_cons_of_neg (by rw [hd]; exact Bool.false_ne_true)
    | plus => exact List.dropWhile_cons_of_neg (by decide)
    | minus => exact List.dropWhile_cons_of_neg (by decide)
  rw [text, lead, List.append_assoc, List.append_assoc, List.append_assoc,
    List.dropWhile_append_of_pos n.blank, ← List.append_assoc, hstop]

/-- A sign is passed over, and a digit is not taken for one. -/
theorem Numeral.skipped (n : Numeral) (r : List UInt8) :
    skipSign (n.sign.text ++ n.digits ++ r) = n.digits ++ r ∧
      (negative (n.sign.text ++ n.digits ++ r) = true ↔ n.sign = .minus) := by
  obtain ⟨d, ds, hds⟩ := List.exists_cons_of_ne_nil n.nonempty
  have hd : isDigit d = true := n.digit d (hds ▸ List.mem_cons_self)
  cases n.sign with
  | none =>
    rw [hds]
    refine ⟨skipSign_digit hd _, ⟨fun h => ?_, fun h => absurd h (by decide)⟩⟩
    exact absurd ((negative_digit hd _).symm.trans h) Bool.false_ne_true
  | plus => exact ⟨rfl, by simp [negative, Sign.text]⟩
  | minus => exact ⟨rfl, by simp [negative, Sign.text]⟩

/-- **`strtoul` reads every number**, up to something that is no digit. -/
theorem strtoul_numeral (n : Numeral) {r : List UInt8} (hr : ∀ c ∈ r.head?, isDigit c = false) :
    strtoul (n.text ++ r) = (n.value, r) := by
  obtain ⟨hskip, hneg⟩ := n.skipped r
  have htake := takeWhile_digits n.digit hr
  have hrest : (n.digits ++ r).dropWhile isDigit = r := by
    have hsplit : (n.digits ++ r).takeWhile isDigit ++ (n.digits ++ r).dropWhile isDigit =
        n.digits ++ r :=
      List.takeWhile_append_dropWhile
    rw [htake] at hsplit
    exact List.append_cancel_left hsplit
  rw [strtoul, n.dropBlanks, hskip, htake, hrest, if_neg n.nonempty]
  unfold Numeral.value
  simp only [hneg]

end CString
