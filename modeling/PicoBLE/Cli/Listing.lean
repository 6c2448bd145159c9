import PicoBLE.Cli.Heredoc
import PicoBLE.Cli.LineAssembly

/-!
# The listing of a script

`script show` writes a script to the terminal with each newline as CR LF. When
that is typed in again, the line assembly drops what cannot be typed: control
characters, what a backspace takes back, and everything behind the 255th
character of a line. So a text comes back as it was if its lines are all as they
could have been typed, and no other does.
-/

namespace PicoBLE.Cli

open CString (ascii)
open PicoBLE.Storage

/-! ## The listing -/

/-- `while (end < len && body[end] != '\n') end++`. -/
def showEnd (body : List UInt8) (off : Nat) : Nat :=
  off + ((body.drop off).takeWhile (· ≠ 10)).length

/-- Where the next turn of the loop begins. -/
def showNext (body : List UInt8) (off : Nat) : Nat :=
  if showEnd body off < body.length then showEnd body off + 1 else showEnd body off

theorem showNext_gt {body : List UInt8} {off : Nat} (h : off < body.length) :
    off < showNext body off := by
  have hle : off ≤ showEnd body off := Nat.le_add_right _ _
  unfold showNext
  split <;> omega

/-- What the loop of `cmd_show` writes from an offset on. -/
def showFrom (body : List UInt8) (off : Nat) : List UInt8 :=
  if off < body.length then
    (body.drop off).take (showEnd body off - off) ++ [13, 10] ++ showFrom body (showNext body off)
  else []
termination_by body.length - off
decreasing_by
  have := @showNext_gt body off ‹_›
  omega

/-- What `cmd_show` writes. -/
def cmdShowText (name : List UInt8) (fw : Fw) : List UInt8 :=
  match scriptsOpen fw.scriptOpen name fw.flash.image with
  | none => cliPrintf (ascii "script: no such script or CRC failure: " ++ name ++ [13, 10])
  | some script => showFrom (script.text fw.flash.image) 0

/-- The lines of a text, the last of which need not have a newline. -/
def bodyLines : List UInt8 → List (List UInt8)
  | [] => []
  | 10 :: s => [] :: bodyLines s
  | b :: s =>
    match bodyLines s with
    | line :: lines => (b :: line) :: lines
    | [] => [[b]]

theorem bodyLines_newline {line : List UInt8} (h : 10 ∉ line) (rest : List UInt8) :
    bodyLines (line ++ 10 :: rest) = line :: bodyLines rest := by
  induction line with
  | nil => rfl
  | cons b line ih =>
    have hb : b ≠ 10 := fun he => h (he ▸ List.mem_cons_self)
    rw [List.cons_append, bodyLines, ih fun hm => h (List.mem_cons_of_mem _ hm)]
    exact hb

theorem bodyLines_last {line : List UInt8} (h : 10 ∉ line) (hne : line ≠ []) :
    bodyLines line = [line] := by
  induction line with
  | nil => exact absurd rfl hne
  | cons b line ih =>
    have hb : b ≠ 10 := fun he => h (he ▸ List.mem_cons_self)
    rw [bodyLines]
    · by_cases hnil : line = []
      · rw [hnil]; rfl
      · rw [ih (fun hm => h (List.mem_cons_of_mem _ hm)) hnil]
    · exact hb

/-- A text begins with a line, which a newline ends or the text itself. -/
theorem firstLine (s : List UInt8) : 10 ∉ s.takeWhile (· ≠ 10) ∧
    (s = s.takeWhile (· ≠ 10) ∨ ∃ rest, s = s.takeWhile (· ≠ 10) ++ 10 :: rest) := by
  refine ⟨fun hm => absurd (List.mem_takeWhile_imp hm) (by decide), ?_⟩
  have hsplit : s.takeWhile (· ≠ 10) ++ s.dropWhile (· ≠ 10) = s := List.takeWhile_append_dropWhile
  cases hrest : s.dropWhile (· ≠ 10) with
  | nil =>
    rw [hrest, List.append_nil] at hsplit
    exact .inl hsplit.symm
  | cons c rest =>
    have hhead := List.head?_dropWhile_not (fun c : UInt8 => decide (c ≠ 10)) s
    rw [hrest] at hhead hsplit
    obtain rfl : c = 10 := by simpa using hhead
    exact .inr ⟨rest, hsplit.symm⟩

/-- **The listing**: each line, with CR LF. -/
theorem showFrom_lines (body : List UInt8) (off : Nat) :
    showFrom body off = (bodyLines (body.drop off)).flatMap (· ++ [13, 10]) := by
  induction hlen : body.length - off using Nat.strong_induction_on generalizing off with
  | _ k ih =>
    rw [showFrom]
    split
    · next hoff =>
      have hgt := showNext_gt hoff
      rw [ih _ (by omega) (showNext body off) rfl]
      obtain ⟨hline, hrest⟩ := firstLine (body.drop off)
      have hend : showEnd body off - off = ((body.drop off).takeWhile (· ≠ 10)).length := by
        rw [showEnd, Nat.add_sub_cancel_left]
      have hdrop : (body.drop off).length = body.length - off := List.length_drop
      rw [hend]
      unfold showNext showEnd
      generalize hl : (body.drop off).takeWhile (· ≠ 10) = line at hline hrest ⊢
      rcases hrest with hlast | ⟨rest, hmore⟩
      · -- the last line, without a newline
        have hne : line ≠ [] := by
          rintro rfl
          rw [hlast, List.length_nil] at hdrop
          omega
        rw [hlast] at hdrop ⊢
        rw [if_neg (by omega), List.take_length, bodyLines_last hline hne, ← List.drop_drop, hlast,
          List.drop_length]
        simp [bodyLines]
      · rw [hmore, List.length_append, List.length_cons] at hdrop
        have hnext : body.drop (off + line.length + 1) = rest := by
          rw [Nat.add_assoc, ← List.drop_drop, hmore]
          simp
        rw [if_pos (by omega), hnext, hmore, List.take_left, bodyLines_newline hline,
          List.flatMap_cons]
    · next hoff =>
      rw [List.drop_of_length_le (Nat.le_of_not_lt hoff)]
      rfl

/-! ## What comes back -/

/-- What the pieces that have ended come to. -/
def typedLines (s : List UInt8) : List (List UInt8) := (splitLines s).1.map lineText

/-- What is stored when the listing is typed. -/
def typedBack (body : List UInt8) : List UInt8 := textOf (typedLines (showFrom body 0))

/-- A line that goes through the line assembly unchanged. -/
def Keyed (line : List UInt8) : Prop := line.length ≤ cliLineMax - 1 ∧ ∀ c ∈ line, 32 ≤ c ∧ c ≠ 127

instance (line : List UInt8) : Decidable (Keyed line) := inferInstanceAs (Decidable (_ ∧ _))

/-- A text of such lines, the last with its newline too. -/
def Clean (body : List UInt8) : Prop := ∃ lines, body = textOf lines ∧ ∀ line ∈ lines, Keyed line

/-- Only what can be typed gets into a line. -/
theorem keyed_lineText (piece : List UInt8) : Keyed (lineText piece) := by
  induction piece using List.reverseRecOn with
  | nil => exact ⟨Nat.zero_le _, fun c hc => absurd hc List.not_mem_nil⟩
  | append_singleton piece b ih =>
    rw [lineText_snoc, editByte]
    split
    · refine ⟨?_, fun c hc => ih.2 c (List.mem_of_mem_dropLast hc)⟩
      rw [List.length_dropLast]
      exact (Nat.sub_le _ _).trans ih.1
    · next hback =>
      split
      · next hb =>
        refine ⟨?_, fun c hc => ?_⟩
        · rw [List.length_append]
          exact hb.2
        · rcases List.mem_append.mp hc with hc | hc
          · exact ih.2 c hc
          · obtain rfl := List.mem_singleton.mp hc
            exact ⟨hb.1, fun he => hback (.inr he)⟩
      · exact ih

theorem lineText_keyed {line : List UInt8} (h : Keyed line) : lineText line = line := by
  induction line using List.reverseRecOn with
  | nil => rfl
  | append_singleton line b ih =>
    obtain ⟨hlen, hchars⟩ := h
    rw [List.length_append, List.length_singleton] at hlen
    have hline : lineText line = line :=
      ih ⟨by omega, fun c hc => hchars c (List.mem_append_left _ hc)⟩
    obtain ⟨hprint, hdel⟩ := hchars b (by simp)
    have hback : ¬ (b = 8 ∨ b = 127) := by
      rintro (rfl | rfl)
      · exact absurd hprint (by decide)
      · exact hdel rfl
    rw [lineText_snoc, hline, editByte, if_neg hback, if_pos ⟨hprint, by omega⟩]

theorem Keyed.ends {line : List UInt8} (h : Keyed line) : ∀ c ∈ line, c ≠ 13 ∧ c ≠ 10 := by
  intro c hc
  have hprint := (h.2 c hc).1
  refine ⟨?_, ?_⟩ <;> rintro rfl <;> exact absurd hprint (by decide)

/-- What the capture gets, unless it is one of the two words that end it. -/
theorem Keyed.typable {line : List UInt8} (h : Keyed line) (hend : skipWs line ≠ ascii ".end")
    (habort : skipWs line ≠ ascii ".abort") : Typable line := by
  refine ⟨h.1, fun c hc => ?_, hend, habort⟩
  obtain ⟨hcr, hlf⟩ := h.ends c hc
  have hprint := (h.2 c hc).1
  refine ⟨by simp [isNewline, hcr, hlf], ?_⟩
  rintro rfl
  exact absurd hprint (by decide)

/-- A line with its CR LF. -/
theorem splitLines_crlf {line : List UInt8} (h : ∀ c ∈ line, c ≠ 13 ∧ c ≠ 10) (rest : List UInt8) :
    splitLines (line ++ 13 :: 10 :: rest) = (line :: (splitLines rest).1, (splitLines rest).2) := by
  induction line with
  | nil => rw [List.nil_append, splitLines]
  | cons b line ih =>
    obtain ⟨hcr, hlf⟩ := h b List.mem_cons_self
    rw [List.cons_append, splitLines_char hcr hlf, ih fun c hc => h c (List.mem_cons_of_mem _ hc)]
    rfl

/-- The pieces of a listing. -/
theorem splitLines_listing {lines : List (List UInt8)} (h : ∀ line ∈ lines, Keyed line) :
    splitLines (lines.flatMap (· ++ [13, 10])) = (lines, []) := by
  induction lines with
  | nil => rfl
  | cons line lines ih =>
    have happ : (line :: lines).flatMap (· ++ [13, 10]) =
        line ++ 13 :: 10 :: lines.flatMap (· ++ [13, 10]) := by
      simp
    rw [happ, splitLines_crlf (h line List.mem_cons_self).ends, ih fun l hl =>
      h l (List.mem_cons_of_mem _ hl)]

theorem bodyLines_textOf {lines : List (List UInt8)} (h : ∀ line ∈ lines, 10 ∉ line) :
    bodyLines (textOf lines) = lines := by
  induction lines with
  | nil => rfl
  | cons line lines ih =>
    have happ : textOf (line :: lines) = line ++ 10 :: textOf lines := by simp [textOf]
    rw [happ, bodyLines_newline (h line List.mem_cons_self), ih fun l hl =>
      h l (List.mem_cons_of_mem _ hl)]

/-- The lines of such a text come back as they are. -/
theorem typedLines_clean {lines : List (List UInt8)} (h : ∀ line ∈ lines, Keyed line) :
    typedLines (showFrom (textOf lines) 0) = lines := by
  have hlf : ∀ line ∈ lines, 10 ∉ line := fun line hl hm => ((h line hl).ends 10 hm).2 rfl
  rw [typedLines, showFrom_lines, List.drop_zero, bodyLines_textOf hlf, splitLines_listing h]
  calc lines.map lineText = lines.map id :=
    List.map_congr_left fun line hl => lineText_keyed (h line hl)
    _ = lines := List.map_id _

theorem clean_typed (s : List UInt8) : Clean (textOf (typedLines s)) := by
  refine ⟨_, rfl, fun line hl => ?_⟩
  obtain ⟨piece, -, rfl⟩ := List.mem_map.mp hl
  exact keyed_lineText piece

/-- **A text comes back as it was exactly if it could have been typed.** -/
theorem typedBack_iff (body : List UInt8) : typedBack body = body ↔ Clean body := by
  constructor
  · intro h
    rw [← h]
    exact clean_typed _
  · rintro ⟨lines, rfl, h⟩
    rw [typedBack, typedLines_clean h]

/-- Whatever it was, it does not change a second time. -/
theorem typedBack_twice (body : List UInt8) : typedBack (typedBack body) = typedBack body :=
  (typedBack_iff _).mpr (clean_typed _)

/-! ## Behind what was there before -/

/-- Nothing of the stream before is in the line that begins here. -/
def LineStart (p : List UInt8) : Prop := lineText (splitLines p).2 = []

/-- The byte ends a piece: CR, LF, or the two together once. -/
def endsPiece (b : UInt8) (p : List UInt8) : Bool := b = 13 || (b = 10 && !endsCr p)

theorem typedLines_ends {p : List UInt8} {b : UInt8} (h : endsPiece b p = true) :
    typedLines (p ++ [b]) = typedLines p ++ [lineText (splitLines p).2] ∧
    lineText (splitLines (p ++ [b])).2 = [] := by
  have hsplit := @splitLines_ends { Assembly.fresh with fed := p } b h
  dsimp only at hsplit
  rw [typedLines, hsplit, List.map_append]
  exact ⟨rfl, rfl⟩

theorem typedLines_types {p : List UInt8} {b : UInt8} (h : endsPiece b p = false) :
    typedLines (p ++ [b]) = typedLines p ∧
      lineText (splitLines (p ++ [b])).2 = editByte (lineText (splitLines p).2) b := by
  obtain ⟨hpieces, htext⟩ := @splitLines_types { Assembly.fresh with fed := p } b h
  dsimp only at hpieces htext
  rw [typedLines, hpieces]
  exact ⟨rfl, htext⟩

/-- A byte ends a piece behind both or behind neither. -/
theorem endsPiece_after (p : List UInt8) {s : List UInt8} {b : UInt8}
    (hs : (s ++ [b]).head? ≠ some 10) :
    endsPiece b (p ++ s) = endsPiece b s := by
  by_cases hnil : s = []
  · subst hnil
    have hb : b ≠ 10 := fun he => hs (by rw [he]; rfl)
    simp [endsPiece, hb]
  · have hcr : endsCr (p ++ s) = endsCr s := by
      rw [endsCr, endsCr, List.getLast?_append_of_ne_nil _ hnil]
    simp only [endsPiece, hcr]

theorem head_snoc {s : List UInt8} {b : UInt8} (hs : (s ++ [b]).head? ≠ some 10) :
    s.head? ≠ some 10 := by
  intro he
  rw [List.head?_append, he] at hs
  exact hs rfl

/-- **What is typed from the start of a line on** makes the same lines as it would alone, unless
it begins with the line feed of a CR LF. -/
theorem typedLines_after {p s : List UInt8} (hp : LineStart p) (hs : s.head? ≠ some 10) :
    typedLines (p ++ s) = typedLines p ++ typedLines s ∧
      lineText (splitLines (p ++ s)).2 = lineText (splitLines s).2 := by
  induction s using List.reverseRecOn with
  | nil =>
    rw [List.append_nil]
    exact ⟨(List.append_nil _).symm, hp⟩
  | append_singleton s b ih =>
    obtain ⟨hlines, htext⟩ := ih (head_snoc hs)
    have hsame := endsPiece_after p hs
    rw [← List.append_assoc]
    cases hends : endsPiece b s with
    | true =>
      obtain ⟨hmore, hnone⟩ := typedLines_ends (hsame.trans hends)
      obtain ⟨hmore', hnone'⟩ := typedLines_ends hends
      rw [hmore, hmore', hlines, htext, hnone, hnone', List.append_assoc]
      exact ⟨rfl, rfl⟩
    | false =>
      obtain ⟨hmore, hedit⟩ := typedLines_types (hsame.trans hends)
      obtain ⟨hmore', hedit'⟩ := typedLines_types hends
      rw [hmore, hmore', hlines, hedit, hedit', htext]
      exact ⟨rfl, rfl⟩

/-! ## The end of a listing -/

/-- Text without a line end goes to the last piece. -/
theorem splitLines_text (s : List UInt8) {text : List UInt8} (h : ∀ c ∈ text, c ≠ 13 ∧ c ≠ 10) :
    splitLines (s ++ text) = ((splitLines s).1, (splitLines s).2 ++ text) := by
  induction text using List.reverseRecOn with
  | nil => rw [List.append_nil, List.append_nil]
  | append_singleton text b ih =>
    obtain ⟨hcr, hlf⟩ := h b (by simp)
    rw [← List.append_assoc, splitLines_snoc, if_neg fun hb => hlf hb.1,
      if_neg (fun hb => hb.elim hcr hlf), ih fun c hc => h c (List.mem_append_left _ hc),
      List.append_assoc]

/-- A listing is at the start of a line where it ends, and it does not begin with a line feed. -/
theorem listing_ends (body : List UInt8) :
    (splitLines (showFrom body 0)).2 = [] ∧ (showFrom body 0).head? ≠ some 10 := by
  rw [showFrom_lines, List.drop_zero]
  have hlf : ∀ line ∈ bodyLines body, 10 ∉ line := by
    fun_induction bodyLines body with
    | case1 => exact fun _ hl => absurd hl List.not_mem_nil
    | case2 s ih =>
      intro line hl
      rcases List.mem_cons.mp hl with rfl | hl
      · exact List.not_mem_nil
      · exact ih line hl
    | case3 b s hb first lines heq ih =>
      intro line hl
      rw [heq] at ih
      rcases List.mem_cons.mp hl with rfl | hl
      · intro hm
        rcases List.mem_cons.mp hm with rfl | hm
        · exact hb rfl
        · exact ih first List.mem_cons_self hm
      · exact ih line (List.mem_cons_of_mem _ hl)
    | case4 b s hb heq ih =>
      intro line hl
      obtain rfl := List.mem_singleton.mp hl
      intro hm
      exact hb (List.mem_singleton.mp hm).symm
  constructor
  · cases hrev : (bodyLines body).reverse with
    | nil => rw [List.reverse_eq_nil_iff.mp hrev]; rfl
    | cons line lines =>
      have hback : bodyLines body = lines.reverse ++ [line] := by
        rw [← List.reverse_reverse (bodyLines body), hrev, List.reverse_cons]
      -- a carriage return ends the piece, and the line feed belongs to it
      rw [hback, List.flatMap_append, List.flatMap_singleton,
        show line ++ [13, 10] = (line ++ [13]) ++ [10] by
          simp, ← List.append_assoc, splitLines_snoc,
        if_pos ⟨rfl, by rw [← List.append_assoc, endsCr_snoc]; rfl⟩, ← List.append_assoc]
      exact splitLines_endsCr (by rw [endsCr_snoc]; rfl)
  · cases hb : bodyLines body with
    | nil => simp
    | cons line lines =>
      have hline := hlf line (hb ▸ List.mem_cons_self)
      cases line with
      | nil => simp
      | cons c line =>
        have hc : c ≠ 10 := fun he => hline (he ▸ List.mem_cons_self)
        simpa using hc

/-- What `cmd_show` writes of a script that is stored, while none is running. -/
theorem cmdShowText_load {name body : List UInt8} {fw : Fw} (hclosed : fw.scriptOpen = false)
    (hload : scriptsLoad name none fw.flash.image = some body) :
    cmdShowText name fw = showFrom body 0 := by
  obtain ⟨script, hopen, htext⟩ := scriptsOpen_loaded hload
  rw [cmdShowText, hclosed, hopen]
  dsimp only
  rw [htext]

/-- What a listing and `.end` come to, behind the start of a line. -/
theorem typedLines_end {p : List UInt8} (hp : LineStart p) (body : List UInt8) :
    typedLines (showFrom body 0 ++ ascii ".end") = typedLines (showFrom body 0) ∧
      lineText (splitLines (p ++ (showFrom body 0 ++ ascii ".end"))).2 = ascii ".end" ∧
      (showFrom body 0 ++ ascii ".end").head? ≠ some 10 := by
  obtain ⟨hnil, hfirst⟩ := listing_ends body
  have htext := @splitLines_text (showFrom body 0) (ascii ".end") (by decide +kernel)
  have hhead : (showFrom body 0 ++ ascii ".end").head? ≠ some 10 := by
    cases hbody : showFrom body 0 with
    | nil => decide
    | cons c rest =>
      rw [hbody] at hfirst
      exact hfirst
  refine ⟨?_, ?_, hhead⟩
  · rw [typedLines, htext]
    rfl
  · rw [(typedLines_after hp hhead).2, htext, hnil]
    rfl

end PicoBLE.Cli
