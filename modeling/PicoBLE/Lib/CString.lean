import Mathlib.Algebra.Ring.Int.Defs
import Mathlib.Algebra.Ring.Nat
import Mathlib.Data.List.Infix
import Mathlib.Data.List.TakeWhile
import Mathlib.Tactic.Common

/-!
# C strings

The `string.h`, `ctype.h` and `stdlib.h` functions that text-handling C code
uses, on a string as the list of its bytes before the terminating NUL. A
pointer into a string is the rest of the string from there, and the NUL that
ends it is the empty list.

`long` and `unsigned long` are 32 bits wide, and the locale is "C".
-/

namespace CString

/-- A string literal. -/
def ascii (s : String) : List UInt8 := s.toList.map fun c => UInt8.ofNat c.toNat

/-- The string that a buffer holds: what stands before its first NUL. -/
def ofBuffer (bs : List UInt8) : List UInt8 := bs.takeWhile (· ≠ 0)

/-- A buffer without a NUL in it is all string. -/
theorem ofBuffer_eq {bs : List UInt8} (h : 0 ∉ bs) : ofBuffer bs = bs := by
  refine List.takeWhile_eq_self_iff.mpr fun b hb => ?_
  have hne : b ≠ 0 := fun h0 => h (h0 ▸ hb)
  simpa using hne

/-- A string, and its NUL. -/
theorem ofBuffer_append {bs : List UInt8} (h : 0 ∉ bs) (r : List UInt8) :
    ofBuffer (bs ++ 0 :: r) = bs := by
  have hbs : bs.takeWhile (fun b => decide (b ≠ 0)) = bs := ofBuffer_eq h
  rw [ofBuffer, List.takeWhile_append_of_pos fun b hb =>
    by simpa using fun hz : b = 0 => h (hz ▸ hb)]
  exact (congrArg (bs ++ ·) (List.takeWhile_cons_of_neg (by simp))).trans (List.append_nil bs)

/-- Behind a NUL there is nothing. -/
theorem ofBuffer_zero (bs r : List UInt8) : ofBuffer (bs ++ 0 :: r) = ofBuffer bs := by
  induction bs with
  | nil => exact List.takeWhile_cons_of_neg (by simp)
  | cons b bs ih =>
    unfold ofBuffer at ih ⊢
    rw [List.cons_append, List.takeWhile_cons, List.takeWhile_cons, ih]

theorem ofBuffer_nul (bs : List UInt8) : 0 ∉ ofBuffer bs := by
  intro h
  exact absurd (List.mem_takeWhile_imp h) (by simp)

theorem ofBuffer_idem (bs : List UInt8) : ofBuffer (ofBuffer bs) = ofBuffer bs :=
  ofBuffer_eq (ofBuffer_nul bs)

/-- A buffer with a NUL in it is a string, the NUL and something else. -/
theorem exists_ofBuffer {bs : List UInt8} (h : 0 ∈ bs) : ∃ r, bs = ofBuffer bs ++ 0 :: r := by
  obtain ⟨s, r, rfl, hs⟩ := List.eq_append_cons_of_mem h
  exact ⟨r, by rw [ofBuffer_append hs]⟩

/-- `strncmp(s, t, n) == 0`: the strings are alike in their first `n` characters. -/
def strncmpEq (n : Nat) (s t : List UInt8) : Bool := s.take n = t.take n

/-- `strcmp`, by the sign of what it returns. The characters are compared as `unsigned char`. -/
def strcmp : List UInt8 → List UInt8 → Ordering
  | [], [] => .eq
  | [], _ :: _ => .lt
  | _ :: _, [] => .gt
  | a :: s, b :: t => if a < b then .lt else if b < a then .gt else strcmp s t

theorem strcmp_cons_self (a : UInt8) (s t : List UInt8) :
    strcmp (a :: s) (a :: t) = strcmp s t := by
  rw [strcmp, if_neg (UInt8.lt_irrefl a), if_neg (UInt8.lt_irrefl a)]

/-- The strings are alike, or differ in the first character that is not the same. -/
theorem strcmp_cons_cases (a b : UInt8) (s t : List UInt8) :
    (a = b ∧ strcmp (a :: s) (b :: t) = strcmp s t) ∨ (a < b ∧ strcmp (a :: s) (b :: t) = .lt) ∨
      b < a ∧ strcmp (a :: s) (b :: t) = .gt := by
  rcases Nat.lt_trichotomy a.toNat b.toNat with hlt | heq | hgt
  · have h : a < b := UInt8.lt_iff_toNat_lt.mpr hlt
    exact .inr (.inl ⟨h, by rw [strcmp, if_pos h]⟩)
  · obtain rfl := UInt8.toNat_inj.mp heq
    exact .inl ⟨rfl, strcmp_cons_self a s t⟩
  · have h : b < a := UInt8.lt_iff_toNat_lt.mpr hgt
    exact .inr (.inr ⟨h, by rw [strcmp, if_neg (UInt8.lt_asymm h), if_pos h]⟩)

theorem strcmp_self (s : List UInt8) : strcmp s s = .eq := by
  induction s with
  | nil => rfl
  | cons a s ih => rw [strcmp_cons_self, ih]

theorem strcmp_eq_iff {s t : List UInt8} : strcmp s t = .eq ↔ s = t := by
  refine ⟨fun h => ?_, fun h => h ▸ strcmp_self s⟩
  induction s generalizing t with
  | nil =>
    cases t with
    | nil => rfl
    | cons b t => exact absurd h (by simp [strcmp])
  | cons a s ih =>
    cases t with
    | nil => exact absurd h (by simp [strcmp])
    | cons b t =>
      rcases strcmp_cons_cases a b s t with ⟨rfl, he⟩ | ⟨-, he⟩ | ⟨-, he⟩
      · rw [ih (he.symm.trans h)]
      · exact absurd (he.symm.trans h) (by decide)
      · exact absurd (he.symm.trans h) (by decide)

/-- The other way round the sign is the other one. -/
theorem strcmp_swap (s t : List UInt8) : strcmp t s = (strcmp s t).swap := by
  induction s generalizing t with
  | nil => cases t <;> rfl
  | cons a s ih =>
    cases t with
    | nil => rfl
    | cons b t =>
      rcases strcmp_cons_cases a b s t with ⟨rfl, he⟩ | ⟨hlt, he⟩ | ⟨hlt, he⟩
      · rw [he, strcmp_cons_self, ih]
      · rw [he, strcmp, if_neg (UInt8.lt_asymm hlt), if_pos hlt]
        rfl
      · rw [he, strcmp, if_pos hlt]
        rfl

theorem strcmp_trans {s t u : List UInt8} (h : strcmp s t = .lt) (h' : strcmp t u = .lt) :
    strcmp s u = .lt := by
  induction s generalizing t u with
  | nil =>
    cases u with
    | nil => cases t <;> exact absurd h' (by simp [strcmp])
    | cons c u => rfl
  | cons a s ih =>
    cases t with
    | nil => exact absurd h (by simp [strcmp])
    | cons b t =>
      cases u with
      | nil => exact absurd h' (by simp [strcmp])
      | cons c u =>
        have hfirst : a < c → strcmp (a :: s) (c :: u) = .lt :=
          fun hac => by rw [strcmp, if_pos hac]
        rcases strcmp_cons_cases a b s t with ⟨rfl, he⟩ | ⟨hab, -⟩ | ⟨-, he⟩
        · rcases strcmp_cons_cases a c t u with ⟨rfl, he'⟩ | ⟨hac, -⟩ | ⟨-, he'⟩
          · rw [strcmp_cons_self]
            exact ih (he.symm.trans h) (he'.symm.trans h')
          · exact hfirst hac
          · exact absurd (he'.symm.trans h') (by decide)
        · rcases strcmp_cons_cases b c t u with ⟨rfl, -⟩ | ⟨hbc, -⟩ | ⟨-, he'⟩
          · exact hfirst hab
          · exact hfirst (UInt8.lt_trans hab hbc)
          · exact absurd (he'.symm.trans h') (by decide)
        · exact absurd (he.symm.trans h) (by decide)

/-- The `n` bytes that `strncpy` writes: the string, cut off or padded with NULs. -/
def strncpy (n : Nat) (s : List UInt8) : List UInt8 := s.take n ++ List.replicate (n - s.length) 0

@[simp] theorem strncpy_length (n : Nat) (s : List UInt8) : (strncpy n s).length = n := by
  rw [strncpy, List.length_append, List.length_take, List.length_replicate]
  omega

/-- A copy with a NUL behind it holds what the copy kept. -/
theorem ofBuffer_strncpy (n : Nat) {s : List UInt8} (h : 0 ∉ s) :
    ofBuffer (strncpy n s ++ [0]) = s.take n := by
  have hkept : 0 ∉ s.take n := fun hmem => h (List.mem_of_mem_take hmem)
  rw [strncpy, List.append_assoc, ← List.replicate_succ', List.replicate_succ]
  exact ofBuffer_append hkept _

/-- `CR LF`. -/
def crlf : List UInt8 := [13, 10]

/-! ## Characters -/

/-- `isxdigit`. -/
def isXdigit (c : UInt8) : Bool := (48 ≤ c ∧ c ≤ 57) ∨ (65 ≤ c ∧ c ≤ 70) ∨ (97 ≤ c ∧ c ≤ 102)

/-- `tolower`. -/
def toLower (c : UInt8) : UInt8 := if 65 ≤ c ∧ c ≤ 90 then c + 32 else c

/-- A property of all characters can be checked. -/
theorem forall_char {P : UInt8 → Prop} (h : ∀ n : Fin 256, P (UInt8.ofNat n)) (c : UInt8) :
    P c := by
  have hc := h ⟨c.toNat, c.toNat_lt⟩
  rwa [UInt8.ofNat_toNat] at hc

/-! ## Searching -/

/-- `strchr`: the rest of the string from the first `c`. -/
def strchr (c : UInt8) : List UInt8 → Option (List UInt8)
  | [] => none
  | b :: bs => if b = c then some (b :: bs) else strchr c bs

/-- `strstr`: the rest of the string from the first occurrence of `pat`. -/
def strstr (pat : List UInt8) : List UInt8 → Option (List UInt8)
  | [] => if pat = [] then some [] else none
  | b :: bs => if pat <+: b :: bs then some (b :: bs) else strstr pat bs

/-- `strchr` finds the first occurrence. -/
theorem strchr_append {c : UInt8} {p : List UInt8} (h : c ∉ p) (r : List UInt8) :
    strchr c (p ++ c :: r) = some (c :: r) := by
  induction p with
  | nil => rw [List.nil_append, strchr, if_pos rfl]
  | cons b p ih =>
    have hb : b ≠ c := fun hb => h (hb ▸ List.mem_cons_self)
    rw [List.cons_append, strchr, if_neg hb]
    exact ih fun hp => h (List.mem_cons_of_mem _ hp)

/-- The line break that ends a line is the one `strstr` finds. -/
theorem strstr_crlf {line : List UInt8} (h : ¬ crlf <:+: line) (r : List UInt8) :
    strstr crlf (line ++ crlf ++ r) = some (crlf ++ r) := by
  induction line with
  | nil => rw [List.nil_append, crlf, List.cons_append, strstr, if_pos]; exact ⟨r, rfl⟩
  | cons b line ih =>
    have hhead : ¬ crlf <+: b :: (line ++ crlf ++ r) := by
      rintro ⟨t, ht⟩
      obtain ⟨hb, ht⟩ := List.cons.inj ht
      cases line with
      | nil => exact absurd (List.cons.inj ht).1 (by decide)
      | cons b' line' =>
        obtain ⟨hb', -⟩ := List.cons.inj ht
        exact h ⟨[], line', by rw [← hb, ← hb']; rfl⟩
    rw [List.cons_append, List.cons_append, strstr, if_neg hhead]
    exact ih fun hi => h (hi.trans (List.suffix_cons b line).isInfix)

/-! ## Numbers -/

/-- `isspace`. -/
def isSpace (c : UInt8) : Bool := c = 32 ∨ (9 ≤ c ∧ c ≤ 13)

/-- `isdigit`. -/
def isDigit (c : UInt8) : Bool := 48 ≤ c ∧ c ≤ 57

/-- The number that decimal digits spell. -/
def decimal (ds : List UInt8) : Nat := ds.foldl (fun v d => 10 * v + (d.toNat - 48)) 0

/-- A minus sign stands here. -/
def negative (s : List UInt8) : Bool := s.head? = some 45

/-- The rest after an optional sign. -/
def skipSign : List UInt8 → List UInt8
  | 43 :: s => s
  | 45 :: s => s
  | s => s

/-- `strtoul` with base 10: the value, and where the parse stopped. Without a
digit that is where it began. -/
def strtoul (s : List UInt8) : Nat × List UInt8 :=
  let t := s.dropWhile isSpace
  let ds := (skipSign t).takeWhile isDigit
  if ds = [] then (0, s)
  else
    let v := decimal ds
    (if 2 ^ 32 ≤ v then 2 ^ 32 - 1 else if negative t then (2 ^ 32 - v) % 2 ^ 32 else v,
      (skipSign t).dropWhile isDigit)

/-- `atoi`, the `int` of `strtol` with base 10. -/
def atoi (s : List UInt8) : Int :=
  let t := s.dropWhile isSpace
  let v := decimal ((skipSign t).takeWhile isDigit)
  if negative t then max (-v) (-2 ^ 31) else min v (2 ^ 31 - 1)

/-- `strtol` with base 10: the value, and where the parse stopped. -/
def strtol (s : List UInt8) : Int × List UInt8 :=
  let t := s.dropWhile isSpace
  let ds := (skipSign t).takeWhile isDigit
  if ds = [] then (0, s)
  else
    let v := decimal ds
    (if negative t then max (-v) (-2 ^ 31) else min v (2 ^ 31 - 1), (skipSign t).dropWhile isDigit)

/-- What `%d` prints. -/
def itoa (v : Int) : List UInt8 :=
  (if v < 0 then [45] else []) ++ (Nat.toDigits 10 v.natAbs).map fun c => UInt8.ofNat c.toNat

/-- There are digits for `strtoul` to read. -/
def hasNumber (s : List UInt8) : Bool := (skipSign (s.dropWhile isSpace)).takeWhile isDigit ≠ []

/-- Without a number the value is 0. -/
theorem strtoul_eq_zero {s : List UInt8} (h : hasNumber s = false) : (strtoul s).1 = 0 := by
  have hnil : (skipSign (s.dropWhile isSpace)).takeWhile isDigit = [] := by
    simpa [hasNumber] using h
  rw [strtoul, hnil, if_pos rfl]

theorem strtoul_lt (s : List UInt8) : (strtoul s).1 < 2 ^ 32 := by
  rw [strtoul]
  dsimp only
  split
  · exact Nat.two_pow_pos 32
  · dsimp only
    split
    · omega
    · split
      · exact Nat.mod_lt _ (Nat.two_pow_pos 32)
      · omega

theorem isDigit_not_space {c : UInt8} (h : isDigit c = true) : isSpace c = false := by
  simp only [isDigit, isSpace, decide_eq_true_eq, decide_eq_false_iff_not, UInt8.le_iff_toNat_le,
    ← UInt8.toNat_inj, UInt8.reduceToNat] at *
  omega

/-- A digit is worth at most 9. -/
theorem isDigit_value {c : UInt8} (h : isDigit c = true) : c.toNat - 48 ≤ 9 := by
  have hc : c ≤ 57 := by
    simp only [isDigit, decide_eq_true_eq] at h
    exact h.2
  have hle : c.toNat ≤ 57 := UInt8.le_iff_toNat_le.mp hc
  omega

/-- A digit is no sign. -/
theorem skipSign_digit {c : UInt8} (h : isDigit c = true) (s : List UInt8) :
    skipSign (c :: s) = c :: s := by
  unfold skipSign
  split
  · next heq => rw [(List.cons.inj heq).1] at h; exact absurd h (by decide)
  · next heq => rw [(List.cons.inj heq).1] at h; exact absurd h (by decide)
  · rfl

theorem negative_digit {c : UInt8} (h : isDigit c = true) (s : List UInt8) :
    negative (c :: s) = false := by
  have hc : c ≠ 45 := by rintro rfl; exact absurd h (by decide)
  simpa [negative] using hc

/-- The digits are what `takeWhile` takes when something else follows. -/
theorem takeWhile_digits {ds r : List UInt8} (hd : ∀ d ∈ ds, isDigit d = true)
    (hr : ∀ c ∈ r.head?, isDigit c = false) : (ds ++ r).takeWhile isDigit = ds := by
  rw [List.takeWhile_append_of_pos hd]
  cases r with
  | nil => exact List.append_nil ds
  | cons c r => rw [List.takeWhile_cons_of_neg (by simpa using hr c rfl), List.append_nil]

/-- A number that starts with a digit has nothing before it to skip. -/
theorem skip_digits {ds : List UInt8} (hne : ds ≠ []) (hd : ∀ d ∈ ds, isDigit d = true)
    (r : List UInt8) :
    (ds ++ r).dropWhile isSpace = ds ++ r ∧ skipSign (ds ++ r) = ds ++ r ∧
      negative (ds ++ r) = false := by
  obtain ⟨d, ds', rfl⟩ := List.exists_cons_of_ne_nil hne
  have h1 : isDigit d = true := hd d List.mem_cons_self
  refine ⟨?_, skipSign_digit h1 _, negative_digit h1 _⟩
  rw [List.cons_append, List.dropWhile_cons_of_neg (by simp [isDigit_not_space h1])]

theorem hasNumber_digits {ds r : List UInt8} (hne : ds ≠ []) (hd : ∀ d ∈ ds, isDigit d = true) :
    hasNumber (ds ++ r) = true := by
  obtain ⟨hskip, hsign, -⟩ := skip_digits hne hd r
  rw [hasNumber, hskip, hsign, List.takeWhile_append_of_pos hd]
  exact decide_eq_true fun h => hne (List.append_eq_nil_iff.mp h).1

/-- **`strtoul` on digits** with something else after them. -/
theorem strtoul_digits {ds r : List UInt8} (hne : ds ≠ []) (hd : ∀ d ∈ ds, isDigit d = true)
    (hr : ∀ c ∈ r.head?, isDigit c = false) (hv : decimal ds < 2 ^ 32) :
    strtoul (ds ++ r) = (decimal ds, r) := by
  have htake := takeWhile_digits hd hr
  obtain ⟨hskip, hsign, hneg⟩ := skip_digits hne hd r
  have hrest : (ds ++ r).dropWhile isDigit = r := by
    have hsplit : (ds ++ r).takeWhile isDigit ++ (ds ++ r).dropWhile isDigit = ds ++ r :=
      List.takeWhile_append_dropWhile
    rw [htake] at hsplit
    exact List.append_cancel_left hsplit
  rw [strtoul, hskip, hsign, htake, hneg, hrest, if_neg hne]
  dsimp only
  rw [if_neg (by omega), if_neg Bool.false_ne_true]

/-- **`atoi` on digits** with something else after them. -/
theorem atoi_digits {ds r : List UInt8} (hne : ds ≠ []) (hd : ∀ d ∈ ds, isDigit d = true)
    (hr : ∀ c ∈ r.head?, isDigit c = false) (hv : decimal ds < 2 ^ 31) :
    atoi (ds ++ r) = decimal ds := by
  have htake := takeWhile_digits hd hr
  obtain ⟨hskip, hsign, hneg⟩ := skip_digits hne hd r
  rw [atoi, hskip, hsign, htake, hneg, if_neg Bool.false_ne_true]
  omega

/-- `%d` prints the digits of a number. -/
theorem decimal_itoa (n : Nat) : decimal (itoa n) = n := by
  have hdigit : ∀ c ∈ Nat.toDigits 10 n, (UInt8.ofNat c.toNat).toNat = c.toNat := by
    intro c hc
    have hd := Nat.isDigit_of_mem_toDigits (by decide) (by decide) hc
    simp only [Char.isDigit, Bool.and_eq_true, decide_eq_true_eq] at hd
    have hle : c.toNat ≤ 57 := UInt32.le_iff_toNat_le.mp hd.2
    rw [UInt8.toNat_ofNat']
    omega
  have hprint : itoa n = (Nat.toDigits 10 n).map fun c => UInt8.ofNat c.toNat := by
    rw [itoa, if_neg (Int.not_lt.mpr (Int.natCast_nonneg n)), List.nil_append, Int.natAbs_natCast]
  have hread : ∀ (l : List Char) (v : Nat), (∀ c ∈ l, (UInt8.ofNat c.toNat).toNat = c.toNat) →
      (l.map fun c => UInt8.ofNat c.toNat).foldl (fun v d => 10 * v + (d.toNat - 48)) v
        = Nat.ofDigitChars 10 l v := by
    intro l
    induction l with
    | nil => intro v _; rw [Nat.ofDigitChars_nil]; rfl
    | cons c l ih =>
      intro v hl
      rw [List.map_cons, List.foldl_cons, hl c List.mem_cons_self, Nat.ofDigitChars_cons]
      exact ih _ fun c hc => hl c (List.mem_cons_of_mem _ hc)
  rw [hprint, decimal, hread _ 0 hdigit]
  exact Nat.ofDigitChars_toDigits (by decide) (by decide)

end CString
