import PicoBLE.Network.HttpStream

/-!
# Well-formed response heads

A head as its lines: the status line, then the fields, then an empty line. What
`parse_response_headers` finds in the bytes of such a head is what its lines say.
-/

namespace PicoBLE.Network

open CString

/-! ## Lines -/

/-- A line is not empty and has no line break in it. -/
structure IsLine (line : List UInt8) : Prop where
  nonempty : line ≠ []
  unbroken : ¬ crlf <:+: line

/-- Lines with their line breaks, and an empty line. -/
def block (lines : List (List UInt8)) : List UInt8 := (lines.map (· ++ crlf)).flatten ++ crlf

@[simp] theorem block_nil : block [] = crlf := rfl

theorem block_cons (line : List UInt8) (lines : List (List UInt8)) :
    block (line :: lines) = line ++ crlf ++ block lines := by
  simp [block]

/-- The first line break is the one that ends the line. -/
theorem crlf_first {line : List UInt8} (h : ¬ crlf <:+: line) {u r : List UInt8}
    (hu : u ++ crlf <+: line ++ crlf ++ r) : line.length ≤ u.length := by
  induction line generalizing u with
  | nil => exact Nat.zero_le _
  | cons b line ih =>
    cases u with
    | cons c u =>
      have htail := (List.cons_prefix_cons.mp hu).2
      exact Nat.succ_le_succ (ih (fun hi => h (hi.trans (List.suffix_cons b line).isInfix)) htail)
    | nil =>
      -- a line break at the start of the line
      obtain ⟨hb, htail⟩ := List.cons_prefix_cons.mp hu
      cases line with
      | nil => exact absurd (List.cons_prefix_cons.mp htail).1 (by decide)
      | cons b' line =>
        have hb' := (List.cons_prefix_cons.mp htail).1
        exact absurd ⟨[], line, by rw [← hb, ← hb']; rfl⟩ h

/-- What stands before a line break is the first line, or more than it and its
line break. -/
theorem crlf_after {line : List UInt8} (h : ¬ crlf <:+: line) {u r : List UInt8}
    (hu : u ++ crlf <+: line ++ crlf ++ r) : u = line ∨ ∃ u', u = line ++ crlf ++ u' := by
  have hline : line <+: line ++ crlf ++ r := by rw [List.append_assoc]; exact List.prefix_append _ _
  obtain ⟨w, rfl⟩ := List.prefix_of_prefix_length_le hline ((List.prefix_append u crlf).trans hu)
    (crlf_first h hu)
  rw [List.append_assoc, List.append_assoc, List.prefix_append_right_inj] at hu
  cases w with
  | nil => exact .inl (List.append_nil line)
  | cons c w =>
    obtain ⟨hc, hu⟩ := List.cons_prefix_cons.mp hu
    cases w with
    | nil => exact absurd (List.cons_prefix_cons.mp hu).1 (by decide)
    | cons c' w =>
      obtain ⟨hc', -⟩ := List.cons_prefix_cons.mp hu
      exact .inr ⟨w, by rw [hc, hc', crlf, List.append_assoc]; rfl⟩

/-- **Lines and an empty line are a head.** -/
theorem isHead_block {lines : List (List UInt8)} (hne : lines ≠ []) (h : ∀ l ∈ lines, IsLine l) :
    IsHead (block lines) := by
  induction lines with
  | nil => exact absurd rfl hne
  | cons line lines ih =>
    have hline := h line List.mem_cons_self
    have hrest : ∀ l ∈ lines, IsLine l := fun l hl => h l (List.mem_cons_of_mem _ hl)
    rw [block_cons]
    refine ⟨?_, ?_⟩
    · cases lines with
      | nil => rw [block_nil, List.append_assoc]; exact List.suffix_append line crlfCrlf
      | cons l ls => exact (ih (List.cons_ne_nil _ _) hrest).ends.trans (List.suffix_append _ _)
    · rintro _ hp ⟨u, rfl⟩
      rw [crlfCrlf, ← List.append_assoc] at hp
      rcases crlf_after hline.unbroken ((List.prefix_append _ crlf).trans hp) with rfl | ⟨u', rfl⟩
      · -- right after the first line: there is no other
        rw [List.prefix_append_right_inj] at hp
        cases lines with
        | nil => rw [block_nil, crlfCrlf, List.append_assoc]
        | cons l ls =>
          rw [block_cons] at hp
          have hl := hrest l List.mem_cons_self
          have hlen := crlf_first hl.unbroken (u := []) hp
          exact absurd (List.eq_nil_of_length_eq_zero (Nat.le_zero.mp hlen)) hl.nonempty
      · -- in the lines after it
        have hp' : u' ++ crlfCrlf <+: block lines := by
          rw [List.append_assoc, List.append_assoc, List.prefix_append_right_inj] at hp
          exact hp
        cases lines with
        | nil =>
          have hlen := hp'.length_le
          rw [block_nil, List.length_append] at hlen
          exact absurd hlen (by simp [crlfCrlf, crlf])
        | cons l ls =>
          rw [← (ih (List.cons_ne_nil _ _) hrest).first _ hp' ⟨u', rfl⟩, List.append_assoc,
            List.append_assoc]

/-! ## Heads -/

/-- A `content-length:` line with the decimal value `n`. -/
structure LengthLine (line : List UInt8) (n : Nat) where
  name : List UInt8
  before : List UInt8
  digits : List UInt8
  after : List UInt8
  line_eq : line = name ++ (before ++ (digits ++ after))
  name_length : name.length = 15
  name_ok : namesLength name = true
  blank_before : before.all isBlank = true
  digits_nonempty : digits ≠ []
  digits_ok : digits.all isDigit = true
  blank_after : after.all isBlank = true
  value : decimal digits = n
  pos : 0 < n
  fits : n < 2 ^ 32

/-- How the fields declare the length: no line does, or exactly one. -/
inductive Declares (fields : List (List UInt8)) : Option Nat → Type where
  | absent : (∀ f ∈ fields, namesLength f = false) → Declares fields none
  | line {before after : List (List UInt8)} {line : List UInt8} {n : Nat} :
      fields = before ++ line :: after → (∀ f ∈ before, namesLength f = false) →
      (∀ f ∈ after, namesLength f = false) → LengthLine line n → Declares fields (some n)

/-- A well-formed head: `HTTP/1.x`, a code of three digits, a reason, and the
fields. -/
structure ResponseHead where
  version : UInt8
  code : List UInt8
  reason : List UInt8
  fields : List (List UInt8)
  length : Option Nat
  version_ok : isDigit version = true
  code_length : code.length = 3
  code_ok : code.all isDigit = true
  /-- Nothing, or a space and the phrase. -/
  reason_ok : reason = [] ∨ reason.head? = some 32
  reason_unbroken : ¬ crlf <:+: reason
  fields_ok : ∀ f ∈ fields, IsLine f
  no_nul : 0 ∉ reason ∧ ∀ f ∈ fields, 0 ∉ f
  declares : Declares fields length

namespace ResponseHead

variable (hd : ResponseHead)

/-- `HTTP/1.x`. -/
def protocol : List UInt8 := ascii "HTTP/1." ++ [hd.version]

def statusLine : List UInt8 := hd.protocol ++ 32 :: (hd.code ++ hd.reason)

def bytes : List UInt8 := block (hd.statusLine :: hd.fields)

/-- The status is 2xx. -/
def Success : Prop := 200 ≤ decimal hd.code ∧ decimal hd.code < 300

instance : Decidable hd.Success := inferInstanceAs (Decidable (_ ∧ _))

theorem unbroken_append {p r : List UInt8} (hp : 13 ∉ p) (hr : ¬ crlf <:+: r) :
    ¬ crlf <:+: p ++ r := by
  induction p with
  | nil => exact hr
  | cons c p ih =>
    rw [List.cons_append, List.infix_cons_iff]
    rintro (hc | hi)
    · exact hp ((List.cons_prefix_cons.mp hc).1 ▸ List.mem_cons_self)
    · exact ih (fun hm => hp (List.mem_cons_of_mem _ hm)) hi

/-- The body that the head announces, out of what follows it. -/
def body (b : List UInt8) : List UInt8 :=
  match hd.length with
  | some n => b.take n
  | none => b

/-- All of the body is there. -/
def Whole (b : List UInt8) : Prop := ∀ n ∈ hd.length, n ≤ b.length

instance (b : List UInt8) : Decidable (hd.Whole b) := inferInstanceAs (Decidable (∀ n ∈ _, _))

/-! ### What stands in a head -/

theorem isDigit_ne {c d : UInt8} (h : isDigit c = true) (hd : isDigit d = false) : c ≠ d := by
  rintro rfl
  exact absurd h (by simp [hd])

theorem protocol_free {c : UInt8} (hc : isDigit c = false) (h : c ∉ ascii "HTTP/1.") :
    c ∉ hd.protocol := by
  rw [protocol, List.mem_append, List.mem_singleton]
  rintro (hm | hm)
  · exact h hm
  · exact isDigit_ne hd.version_ok hc hm.symm

theorem code_free {c : UInt8} (hc : isDigit c = false) : c ∉ hd.code :=
  fun hm => isDigit_ne (List.all_eq_true.mp hd.code_ok c hm) hc rfl

theorem statusLine_isLine : IsLine hd.statusLine := by
  refine ⟨by simp [statusLine], ?_⟩
  have hfront : 13 ∉ hd.protocol ++ 32 :: hd.code := by
    simp only [List.mem_append, List.mem_cons, not_or]
    exact ⟨hd.protocol_free (by decide) (by decide), by decide, hd.code_free (by decide)⟩
  have hsplit : hd.statusLine = hd.protocol ++ 32 :: hd.code ++ hd.reason := by
    simp [statusLine]
  rw [hsplit]
  exact unbroken_append hfront hd.reason_unbroken

theorem lines_isLine : ∀ l ∈ hd.statusLine :: hd.fields, IsLine l := by
  intro l hl
  rcases List.mem_cons.mp hl with rfl | hf
  · exact hd.statusLine_isLine
  · exact hd.fields_ok l hf

theorem isHead : IsHead hd.bytes := isHead_block (List.cons_ne_nil _ _) hd.lines_isLine

theorem zero_notMem_bytes : 0 ∉ hd.bytes := by
  have hline : ∀ l ∈ hd.statusLine :: hd.fields, 0 ∉ l := by
    intro l hl
    rcases List.mem_cons.mp hl with rfl | hf
    · simp only [statusLine, List.mem_append, List.mem_cons, not_or]
      exact ⟨hd.protocol_free (by decide) (by decide), by decide, hd.code_free (by decide),
        hd.no_nul.1⟩
    · exact hd.no_nul.2 l hf
  have hcrlf : (0 : UInt8) ∉ crlf := by decide
  rw [bytes, block, List.mem_append, List.mem_flatten]
  rintro (⟨_, hm, h0⟩ | h0)
  · obtain ⟨l, hl, rfl⟩ := List.mem_map.mp hm
    rcases List.mem_append.mp h0 with h0 | h0
    · exact hline l hl h0
    · exact hcrlf h0
  · exact hcrlf h0

/-- **The status** that the parser finds. -/
theorem parseStatus_bytes : parseStatus hd.bytes = decide hd.Success := by
  have hbytes : hd.bytes =
      hd.protocol ++ 32 :: (hd.code ++ (hd.reason ++ (crlf ++ block hd.fields))) := by
    simp [bytes, block_cons, statusLine]
  have hpro : hd.protocol.length = 8 := by
    rw [protocol, List.length_append, List.length_singleton]
    exact congrArg (· + 1) (by decide : (ascii "HTTP/1.").length = 7)
  have hlen : 12 ≤ hd.bytes.length := by
    simp only [hbytes, List.length_append, List.length_cons, hpro, hd.code_length]
    omega
  have hpre : ascii "HTTP/1." <+: hd.bytes := by
    rw [hbytes, protocol, List.append_assoc]
    exact List.prefix_append _ _
  have hcode : decimal hd.code < 2 ^ 31 := by
    obtain ⟨a, b, c, habc⟩ := List.length_eq_three.mp hd.code_length
    have hok := List.all_eq_true.mp hd.code_ok
    rw [habc] at hok ⊢
    have ha := isDigit_value (hok a (by simp))
    have hb := isDigit_value (hok b (by simp))
    have hc := isDigit_value (hok c (by simp))
    simp only [decimal, List.foldl_cons, List.foldl_nil]
    omega
  have hnext : ∀ c ∈ (hd.reason ++ (crlf ++ block hd.fields)).head?, isDigit c = false := by
    intro c hc
    cases hr : hd.reason with
    | nil =>
      rw [hr] at hc
      obtain rfl : 13 = c := by simpa [crlf] using hc
      decide
    | cons r rs =>
      rw [hr] at hc
      have hr32 : r = 32 := by simpa [hr] using hd.reason_ok
      obtain rfl : r = c := by simpa using hc
      rw [hr32]; decide
  have hne : hd.code ≠ [] := List.ne_nil_of_length_pos (by rw [hd.code_length]; omega)
  rw [parseStatus, if_pos ⟨hlen, hpre⟩, ofBuffer_eq hd.zero_notMem_bytes, hbytes,
    strchr_append (hd.protocol_free (by decide) (by decide))]
  refine decide_eq_decide.mpr ?_
  rw [List.tail_cons, atoi_digits hne (List.all_eq_true.mp hd.code_ok) hnext hcode, Success]
  omega

end ResponseHead

/-! ## The fields -/

theorem not_digit_of_blank {c : UInt8} (h : isBlank c = true) : isDigit c = false := by
  have hc : c = 32 ∨ c = 9 := by simpa [isBlank] using h
  rcases hc with rfl | rfl <;> decide

/-- The line break ends the match. -/
theorem ciStartsWith_crlf {pre : List UInt8} (hp : ∀ b ∈ pre, toLower b ≠ 13)
    (f r : List UInt8) : ciStartsWith (f ++ crlf ++ r) pre = ciStartsWith f pre := by
  induction f generalizing pre with
  | nil =>
    cases pre with
    | nil => rfl
    | cons b pre =>
      have hb := hp b List.mem_cons_self
      rw [List.nil_append, crlf, List.cons_append, ciStartsWith, ciStartsWith, if_neg]
      exact fun h => hb h.symm
  | cons c f ih =>
    cases pre with
    | nil => rw [ciStartsWith, ciStartsWith]
    | cons b pre =>
      rw [List.cons_append, List.cons_append, ciStartsWith, ciStartsWith,
        ih fun b hb => hp b (List.mem_cons_of_mem _ hb)]

theorem namesLength_crlf (f r : List UInt8) : namesLength (f ++ crlf ++ r) = namesLength f := by
  have hpre : (ascii "content-length:").all (fun b => toLower b ≠ 13) = true := by decide
  refine ciStartsWith_crlf (fun b hb => ?_) f r
  simpa using List.all_eq_true.mp hpre b hb

theorem ciStartsWith_append {s pre : List UInt8} (h : ciStartsWith s pre = true)
    (t : List UInt8) : ciStartsWith (s ++ t) pre = true := by
  induction s generalizing pre with
  | nil =>
    cases pre with
    | nil => rw [ciStartsWith]
    | cons b pre => exact absurd h Bool.false_ne_true
  | cons c s ih =>
    cases pre with
    | nil => rw [ciStartsWith]
    | cons b pre =>
      rw [ciStartsWith] at h
      rw [List.cons_append, ciStartsWith]
      split at h
      · next hc => rw [if_pos hc]; exact ih h
      · exact absurd h Bool.false_ne_true

/-- What a `content-length:` line declares. -/
theorem LengthLine.declares {line : List UInt8} {n : Nat} (l : LengthLine line n)
    (r : List UInt8) :
    namesLength line = true ∧ lineLength (line ++ crlf ++ r) = some n := by
  obtain ⟨name, before, digits, after, rfl, hlen, hname, hbefore, hne, hdigits, hafter, rfl, -,
    hfits⟩ := l
  rw [List.all_eq_true] at hbefore hdigits hafter
  refine ⟨ciStartsWith_append hname _, ?_⟩
  have hdrop : (name ++ (before ++ (digits ++ after)) ++ crlf ++ r).drop 15 =
      before ++ (digits ++ (after ++ (crlf ++ r))) := by
    rw [← hlen]
    simp
  have hblank : (before ++ (digits ++ (after ++ (crlf ++ r)))).dropWhile isBlank =
      digits ++ (after ++ (crlf ++ r)) := by
    obtain ⟨d, ds, rfl⟩ := List.exists_cons_of_ne_nil hne
    have hd : ¬ isBlank d = true := by
      intro hb
      have hdig := hdigits d List.mem_cons_self
      rw [not_digit_of_blank hb] at hdig
      exact absurd hdig Bool.false_ne_true
    rw [List.dropWhile_append_of_pos hbefore, List.cons_append, List.dropWhile_cons_of_neg hd]
  have hnext : ∀ c ∈ (after ++ (crlf ++ r)).head?, isDigit c = false := by
    intro c hc
    cases after with
    | nil =>
      obtain rfl : 13 = c := by simpa [crlf] using hc
      decide
    | cons a as =>
      obtain rfl : a = c := by simpa using hc
      exact not_digit_of_blank (hafter a List.mem_cons_self)
  rw [lineLength, lineValue, hdrop, hblank, hasNumber_digits hne hdigits, if_pos rfl,
    strtoul_digits hne hdigits hnext hfits]

/-- The parser goes from line to line. -/
theorem lineStarts_block (fuel : Nat) {f : List UInt8} (hf : IsLine f) (fs : List (List UInt8)) :
    lineStarts (fuel + 1) (crlf ++ block (f :: fs)) =
      (f ++ crlf ++ block fs) :: lineStarts fuel (crlf ++ block fs) := by
  have hdrop : (crlf ++ block (f :: fs)).drop 2 = f ++ crlf ++ block fs := by
    rw [block_cons]; rfl
  have hgo : ¬ (f ++ crlf ++ block fs = [] ∨ crlf <+: f ++ crlf ++ block fs) := by
    rintro (hnil | hpre)
    · exact absurd hnil (by simp [crlf])
    · have hlen := crlf_first hf.unbroken (u := []) hpre
      exact hf.nonempty (List.eq_nil_of_length_eq_zero (Nat.le_zero.mp hlen))
  rw [lineStarts, hdrop, if_neg hgo, strstr_crlf hf.unbroken]

theorem lineStarts_end (fuel : Nat) : lineStarts fuel (crlf ++ block []) = [] := by
  cases fuel with
  | zero => rfl
  | succ fuel => rw [lineStarts, if_pos (.inr (by decide))]

/-- Lines that do not name the length change nothing. -/
theorem foldl_other {fs : List (List UInt8)} (hf : ∀ f ∈ fs, IsLine f)
    (hn : ∀ f ∈ fs, namesLength f = false) (fuel : Nat) (d : Option Nat) :
    (lineStarts fuel (crlf ++ block fs)).foldl stepLength d = d := by
  induction fs generalizing fuel with
  | nil => rw [lineStarts_end, List.foldl_nil]
  | cons f fs ih =>
    cases fuel with
    | zero => rfl
    | succ fuel =>
      have hname : namesLength (f ++ crlf ++ block fs) = false := by
        rw [namesLength_crlf]; exact hn f List.mem_cons_self
      rw [lineStarts_block fuel (hf f List.mem_cons_self), List.foldl_cons, stepLength, hname,
        if_neg Bool.false_ne_true]
      exact ih (fun g hg => hf g (List.mem_cons_of_mem _ hg))
        (fun g hg => hn g (List.mem_cons_of_mem _ hg)) fuel

/-- The one line that names the length decides. -/
theorem foldl_line {before after : List (List UInt8)} {line : List UInt8} {n : Nat}
    (hf : ∀ f ∈ before ++ line :: after, IsLine f) (hb : ∀ f ∈ before, namesLength f = false)
    (ha : ∀ f ∈ after, namesLength f = false) (l : LengthLine line n) {fuel : Nat}
    (hfuel : before.length < fuel) (d : Option Nat) :
    (lineStarts fuel (crlf ++ block (before ++ line :: after))).foldl stepLength d = some n := by
  induction before generalizing fuel with
  | nil =>
    obtain ⟨fuel, rfl⟩ : ∃ k, fuel = k + 1 := ⟨fuel - 1, by rw [List.length_nil] at hfuel; omega⟩
    obtain ⟨hname, hlen⟩ := l.declares (block after)
    rw [List.nil_append] at hf ⊢
    rw [lineStarts_block fuel (hf line List.mem_cons_self), List.foldl_cons, stepLength,
      namesLength_crlf, hname, if_pos rfl, hlen]
    exact foldl_other (fun g hg => hf g (List.mem_cons_of_mem _ hg)) ha fuel _
  | cons f before ih =>
    rw [List.length_cons] at hfuel
    obtain ⟨fuel, rfl⟩ : ∃ k, fuel = k + 1 := ⟨fuel - 1, by omega⟩
    rw [List.cons_append] at hf ⊢
    have hname : namesLength (f ++ crlf ++ block (before ++ line :: after)) = false := by
      rw [namesLength_crlf]; exact hb f List.mem_cons_self
    rw [lineStarts_block fuel (hf f List.mem_cons_self), List.foldl_cons, stepLength, hname,
      if_neg Bool.false_ne_true]
    exact ih (fun g hg => hf g (List.mem_cons_of_mem _ hg))
      (fun g hg => hb g (List.mem_cons_of_mem _ hg)) (by omega)

theorem length_lt_block (lines : List (List UInt8)) : lines.length < (block lines).length := by
  induction lines with
  | nil => decide
  | cons line lines ih =>
    have hc : crlf.length = 2 := rfl
    rw [block_cons, List.length_append, List.length_append, List.length_cons]
    omega

/-- **The length** that the parser finds. -/
theorem ResponseHead.declared_bytes (hd : ResponseHead) : declared hd.bytes = hd.length := by
  have hstr : strstr crlf (ofBuffer hd.bytes) = some (crlf ++ block hd.fields) := by
    rw [ofBuffer_eq hd.zero_notMem_bytes, bytes, block_cons,
      strstr_crlf hd.statusLine_isLine.unbroken]
  have hfuel : hd.fields.length < hd.bytes.length := by
    have hlines := length_lt_block (hd.statusLine :: hd.fields)
    rw [List.length_cons] at hlines
    exact Nat.lt_of_succ_lt hlines
  have hfields := hd.fields_ok
  rw [declared, hstr]
  dsimp only
  have hdeclares := hd.declares
  generalize hd.length = length at hdeclares ⊢
  rcases hdeclares with hno | ⟨heq, hbefore, hafter, hline⟩
  · exact foldl_other hfields hno _ none
  · rw [heq] at hfields hfuel ⊢
    rw [List.length_append] at hfuel
    exact foldl_line hfields hbefore hafter hline (by omega) none

end PicoBLE.Network
