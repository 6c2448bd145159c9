import PicoBLE.Cli.Programs
import PicoBLE.System.VarMap

/-!
# Typing any words

Between quotes only the quote, the backslash and the dollar stand for something
else. The first two can be escaped, the dollar cannot, but a variable can hold
one. So whatever the words of a command are, there is a line that comes to
them, as long as there is room: there is no command, and no program, that
cannot be typed.
-/

namespace PicoBLE.Cli

open CString (ascii)
open PicoBLE.System (VarTable validVarName validVarName_length varsGet varsSet varsNameCharFirst
  varsNameCharRest)

/-- The variable as a reference. -/
def dollarRef (name : List UInt8) : List UInt8 := 36 :: 123 :: (name ++ [125])

/-- What is typed between quotes for a character, when a variable holds a dollar. -/
def quoteChar (name : List UInt8) (c : UInt8) : List UInt8 :=
  if c = 36 then dollarRef name else if c = 34 ∨ c = 92 then [92, c] else [c]

def quoteWord (name word : List UInt8) : List UInt8 := 34 :: (word.flatMap (quoteChar name) ++ [34])

/-- The line for some words. -/
def quoteLine (name : List UInt8) (words : List (List UInt8)) : List UInt8 :=
  joined (words.map (quoteWord name))

/-- What the tokenizer makes of it. -/
def tokenChar (name : List UInt8) (c : UInt8) : List UInt8 := if c = 36 then dollarRef name else [c]

def tokenWord (name word : List UInt8) : List UInt8 := word.flatMap (tokenChar name)

section Names

variable {name : List UInt8}

theorem validVarName_chars (h : validVarName name = true) :
    ∀ c ∈ name, varsNameCharRest c = true := by
  cases name with
  | nil => exact fun c hc => absurd hc List.not_mem_nil
  | cons c cs =>
    rw [validVarName, Bool.and_eq_true_iff, Bool.and_eq_true_iff, List.all_eq_true] at h
    exact h.1.2

theorem varsNameCharRest_ne {c : UInt8} (h : varsNameCharRest c = true) :
    c ≠ 0 ∧ c ≠ 34 ∧ c ≠ 92 := by
  refine ⟨?_, ?_, ?_⟩
  · rintro rfl
    exact absurd h (by decide)
  · rintro rfl
    exact absurd h (by decide)
  · rintro rfl
    exact absurd h (by decide)

theorem dollarRef_chars (h : validVarName name = true) :
    ∀ c ∈ dollarRef name, c ≠ 0 ∧ c ≠ 34 ∧ c ≠ 92 := by
  intro c hc
  simp only [dollarRef, List.mem_cons, List.mem_append, List.not_mem_nil, or_false] at hc
  rcases hc with rfl | rfl | hc | rfl
  · decide
  · decide
  · exact varsNameCharRest_ne (validVarName_chars h c hc)
  · decide

theorem first_not_special {c : UInt8} (h : varsNameCharFirst c = true) :
    ¬ isShellSpecial c = true := by
  revert h
  exact CString.forall_char (P := fun c => varsNameCharFirst c = true → ¬ isShellSpecial c = true)
    (by decide +kernel) c

/-- The name goes up to the brace. -/
theorem referenceAt_braced (h : validVarName name = true) (s : List UInt8) :
    referenceAt (123 :: (name ++ 125 :: s)) = some (.var name, s) := by
  have hchars := validVarName_chars h
  have htake : (name ++ 125 :: s).takeWhile varsNameCharRest = name := by
    rw [List.takeWhile_append_of_pos hchars, List.takeWhile_cons_of_neg (by decide),
      List.append_nil]
  have hdrop : (name ++ 125 :: s).dropWhile varsNameCharRest = 125 :: s := by
    rw [List.dropWhile_append_of_pos hchars, List.dropWhile_cons_of_neg (by decide)]
  cases name with
  | nil => exact absurd h (by decide)
  | cons c cs =>
    rw [validVarName, Bool.and_eq_true_iff, Bool.and_eq_true_iff] at h
    rw [referenceAt, List.cons_append, plainName, if_neg (first_not_special h.1.1), if_pos h.1.1,
      ← List.cons_append, htake, hdrop]
    rfl

end Names

/-! ## The tokens -/

section Tokens

variable {name : List UInt8}

/-- Between quotes a character that is neither a quote nor a backslash is itself. -/
theorem refToken_literal {p : List UInt8} (h : ∀ c ∈ p, c ≠ 34 ∧ c ≠ 92) (s : List UInt8) :
    refToken true (p ++ s) = (refToken true s).map fun r => (p ++ r.1, r.2) := by
  induction p with
  | nil => exact Option.map_id'.symm
  | cons c p ih =>
    obtain ⟨hc, hp⟩ := List.forall_mem_cons.mp h
    rw [List.cons_append, refToken_quoted fun hesc => hc.2 hesc.1, if_neg hc.1,
      ih hp, Option.map_map]
    rfl

theorem refToken_quoteChar (hname : validVarName name = true) (c : UInt8) (s : List UInt8) :
    refToken true (quoteChar name c ++ s) = (refToken true s).map fun r =>
    (tokenChar name c ++ r.1, r.2) := by
  unfold quoteChar tokenChar
  by_cases hdollar : c = 36
  · rw [if_pos hdollar, if_pos hdollar]
    exact refToken_literal (fun c hc => (dollarRef_chars hname c hc).2) s
  · rw [if_neg hdollar, if_neg hdollar]
    by_cases hesc : c = 34 ∨ c = 92
    · rw [if_pos hesc]
      rcases hesc with rfl | rfl <;> rw [List.cons_append, List.singleton_append, refToken] <;> rfl
    · rw [if_neg hesc]
      refine refToken_literal (fun x hx => ?_) s
      rw [List.mem_singleton.mp hx]
      exact not_or.mp hesc

/-- **A quoted word is one token.** -/
theorem refToken_quoteWord (hname : validVarName name = true) (word : List UInt8)
    {rest : List UInt8} (hrest : ∀ c ∈ rest.head?, isWs c = true) :
    refToken false (quoteWord name word ++ rest) = some (tokenWord name word, rest) := by
  have hend : refToken true (34 :: rest) = some ([], rest) := by
    rw [refToken_quoted fun hesc => absurd hesc.1 (by decide), if_pos rfl]
    exact @refToken_plain [] rest (fun _ hc => absurd hc List.not_mem_nil) hrest
  have hbody : refToken true (word.flatMap (quoteChar name) ++ 34 :: rest) =
      some (tokenWord name word, rest) := by
    unfold tokenWord
    induction word with
    | nil => exact hend
    | cons c word ih =>
      rw [List.flatMap_cons, List.flatMap_cons, List.append_assoc, refToken_quoteChar hname, ih]
      rfl
  rw [quoteWord, List.cons_append, List.append_assoc, refToken, if_neg (by decide), if_pos rfl]
  exact hbody

theorem refTokens_quoteLine (hname : validVarName name = true)
    {words : List (List UInt8)} {room : Nat} (hroom : words.length ≤ room) :
    refTokens room (quoteLine name words) = .ok (words.map (tokenWord name)) := by
  induction words generalizing room with
  | nil =>
    unfold refTokens
    rfl
  | cons word words ih =>
    obtain ⟨room, rfl⟩ :=
      Nat.exists_eq_succ_of_ne_zero (Nat.ne_of_gt (Nat.lt_of_lt_of_le (Nat.succ_pos _) hroom))
    have htail := ih (Nat.le_of_succ_le_succ hroom)
    -- what stands behind the first word
    obtain ⟨rest, hjoin, hblank, hrest⟩ : ∃ rest, quoteLine name (word :: words) =
      quoteWord name word ++ rest ∧
        (∀ c ∈ rest.head?, isWs c = true) ∧
            refTokens room rest = .ok (words.map (tokenWord name)) := by
      cases words with
      | nil =>
        refine ⟨[], ?_, fun c hc => absurd hc (by simp), htail⟩
        rw [quoteLine, List.map_singleton, joined_singleton, List.append_nil]
      | cons word' words =>
        refine ⟨32 :: quoteLine name (word' :: words), joined_cons (by simp), fun c hc => ?_, ?_⟩
        · obtain rfl := Option.some.inj hc
          rfl
        · rw [refTokens_blank rfl, htail]
    have hfront : (quoteLine name (word :: words)).dropWhile isWs =
        34 :: (word.flatMap (quoteChar name) ++ [34] ++ rest) := by
      rw [hjoin, quoteWord, List.cons_append, List.dropWhile_cons_of_neg (by decide)]
    unfold refTokens
    rw [hfront]
    dsimp only
    rw [← List.cons_append, ← quoteWord, refToken_quoteWord hname word hblank]
    dsimp only
    rw [hrest]
    rfl

end Tokens

/-! ## The expansion -/

/-- What a character is when the reference has been put in its place. -/
def charPart (name : List UInt8) (c : UInt8) : TokenPart := if c = 36 then .var name else .char c

section Expansion

variable {name : List UInt8} {vars : VarTable} {shell : ShellState}

theorem tokenParts_tokenWord (hname : validVarName name = true) (word : List UInt8) :
    tokenParts (tokenWord name word) = word.map (charPart name) := by
  have hparts : ∀ fuel, (tokenWord name word).length ≤ fuel →
      partsOf fuel (tokenWord name word) = word.map (charPart name) := by
    induction word with
    | nil => intro fuel _; cases fuel <;> rfl
    | cons c word ih =>
      intro fuel hfuel
      have hsplit : tokenWord name (c :: word) = tokenChar name c ++ tokenWord name word :=
        List.flatMap_cons
      rw [hsplit, List.length_append] at hfuel
      rw [hsplit, List.map_cons, tokenChar, charPart]
      unfold tokenChar at hfuel
      by_cases hdollar : c = 36
      · rw [if_pos hdollar, dollarRef, List.length_cons] at hfuel
        rw [if_pos hdollar, if_pos hdollar, dollarRef]
        obtain ⟨fuel, rfl⟩ := Nat.exists_eq_succ_of_ne_zero (show fuel ≠ 0 by omega)
        rw [List.cons_append, List.cons_append, List.append_assoc, List.singleton_append,
          partsOf, if_pos rfl, referenceAt_braced hname]
        dsimp only
        rw [ih fuel (by omega)]
      · rw [if_neg hdollar, List.length_singleton] at hfuel
        rw [if_neg hdollar, if_neg hdollar]
        obtain ⟨fuel, rfl⟩ := Nat.exists_eq_succ_of_ne_zero (show fuel ≠ 0 by omega)
        rw [List.singleton_append, partsOf, if_neg hdollar, ih fuel (by omega)]
  exact hparts _ (Nat.le_refl _)

theorem expansionOf_tokenWord (hname : validVarName name = true) {word : List UInt8}
    (hdollar : 36 ∈ word → varsGet name vars = some [36]) :
    expansionOf vars shell (tokenWord name word) = word := by
  rw [expansionOf, tokenParts_tokenWord hname, List.flatMap_map]
  have hchar : ∀ c ∈ word, TokenPart.text vars shell (charPart name c) = [c] := by
    intro c hc
    unfold charPart
    by_cases h : c = 36
    · rw [if_pos h, TokenPart.text, hdollar (h ▸ hc), h]
      rfl
    · rw [if_neg h]
      rfl
  exact (List.flatMap_congr hchar).trans (List.flatMap_singleton' word)

theorem namesShort_tokenWords (hname : validVarName name = true) (words : List (List UInt8)) :
    NamesShort (words.map (tokenWord name)) := by
  intro tok htok part hpart
  obtain ⟨word, -, rfl⟩ := List.mem_map.mp htok
  rw [tokenParts_tokenWord hname] at hpart
  obtain ⟨c, -, rfl⟩ := List.mem_map.mp hpart
  unfold charPart
  by_cases h : c = 36
  · rw [if_pos h]
    exact decide_eq_true (validVarName_length hname)
  · rw [if_neg h]
    rfl

/-- The room that words take, each with its NUL. -/
def wordsSize (words : List (List UInt8)) : Nat := (words.map fun word => word.length + 1).sum

theorem expandedSize_tokenWords (hname : validVarName name = true) {words : List (List UInt8)}
    (hdollar : ∀ word ∈ words, 36 ∈ word → varsGet name vars = some [36]) :
    expandedSize vars shell (words.map (tokenWord name)) = wordsSize words := by
  rw [expandedSize, wordsSize, List.map_map]
  refine congrArg List.sum (List.map_congr_left fun word hword => ?_)
  show (expansionOf vars shell (tokenWord name word)).length + 1 = _
  rw [expansionOf_tokenWord hname (hdollar word hword)]

theorem wordsOf_tokenWords (hname : validVarName name = true) {words : List (List UInt8)}
    (hdollar : ∀ word ∈ words, 36 ∈ word → varsGet name vars = some [36])
    (hnul : ∀ word ∈ words, 0 ∉ word) :
    wordsOf vars shell (words.map (tokenWord name)) = words := by
  rw [wordsOf, List.map_map]
  refine (List.map_congr_left fun word hword => ?_).trans (List.map_id words)
  show CString.ofBuffer (expansionOf vars shell (tokenWord name word)) = word
  rw [expansionOf_tokenWord hname (hdollar word hword), CString.ofBuffer_eq (hnul word hword)]

end Expansion

/-! ## Dispatch -/

/-- What a command can get as its name and arguments. -/
structure ArgVector (words : List (List UInt8)) : Prop where
  ne : words ≠ []
  few : words.length ≤ cliMaxArgs
  nul : ∀ word ∈ words, 0 ∉ word
  size : wordsSize words ≤ cliExpandBufSize

theorem quoteLine_nul {name : List UInt8} (hname : validVarName name = true)
    {words : List (List UInt8)} (hnul : ∀ word ∈ words, 0 ∉ word) : 0 ∉ quoteLine name words := by
  refine joined_nul fun quoted hquoted => ?_
  obtain ⟨word, hword, rfl⟩ := List.mem_map.mp hquoted
  rw [quoteWord, List.mem_cons, List.mem_append, List.mem_singleton, List.mem_flatMap]
  rintro (h | ⟨c, hc, h⟩ | h)
  · exact absurd h (by decide)
  · unfold quoteChar at h
    split at h
    · exact (dollarRef_chars hname 0 h).1 rfl
    · split at h
      · rcases List.mem_cons.mp h with h | h
        · exact absurd h (by decide)
        · exact hnul word hword (List.mem_singleton.mp h ▸ hc)
      · exact hnul word hword (List.mem_singleton.mp h ▸ hc)
  · exact absurd h (by decide)

theorem lineTokens_quoteLine {n : Nat} {name : List UInt8} (hname : validVarName name = true)
    {words : List (List UInt8)} (h : ArgVector words) (hlen : (quoteLine name words).length < n) :
    lineTokens (Buffer.ofString n (quoteLine name words)) = .ok (words.map (tokenWord name)) := by
  have hbytes := Buffer.ofString_bytes hlen
  have hstr : (Buffer.ofString n (quoteLine name words)).str 0 = quoteLine name words := by
    rw [Buffer.str, hbytes, List.drop_zero, CString.ofBuffer_append (quoteLine_nul hname h.nul)]
  have hparse : argvOf (cliParse (Buffer.ofString n (quoteLine name words)) cliMaxArgs) =
      .ok (words.map (tokenWord name)) := by
    rw [cliParse_ref (by rw [hbytes]; simp) (by decide), hstr]
    exact refTokens_quoteLine hname h.few
  obtain ⟨word, words, rfl⟩ := List.exists_cons_of_ne_nil h.ne
  have hfirst : (Buffer.ofString n (quoteLine name (word :: words))).get 0 ≠ 0 := by
    rw [Buffer.get, hbytes, quoteLine, List.map_cons, quoteWord, joined,
      List.intercalate_cons_cons_left]
    show (34 : UInt8) ≠ 0
    decide
  unfold lineTokens
  rw [if_neg hfirst, hparse]
  rfl

/-- The words of a line are no longer than the expansion. -/
theorem wordsSize_wordsOf (vars : VarTable) (shell : ShellState) (toks : List (List UInt8)) :
    wordsSize (wordsOf vars shell toks) ≤ expandedSize vars shell toks := by
  induction toks with
  | nil => exact Nat.le_refl 0
  | cons tok toks ih =>
    have hword : (CString.ofBuffer (expansionOf vars shell tok)).length ≤
        (expansionOf vars shell tok).length :=
      (List.takeWhile_sublist _).length_le
    show (CString.ofBuffer (expansionOf vars shell tok)).length + 1 + wordsSize
      (wordsOf vars shell toks) ≤
      (expansionOf vars shell tok).length + 1 + expandedSize vars shell toks
    omega

theorem lineTokens_length {n : Nat} {line : Buffer n} {toks : List (List UInt8)}
    (h : lineTokens line = .ok toks) :
    toks.length ≤ cliMaxArgs := by
  unfold lineTokens at h
  split at h
  · exact absurd h (by simp)
  · split at h
    · exact absurd h (by simp)
    · exact absurd h (by simp)
    · next htoks =>
      obtain rfl := Except.ok.inj h
      exact argvOf_length htoks

theorem dispatch_argVector {n : Nat} {sh : Shell} {line : Buffer n} {fw : Fw} {buf : ExpandBuf}
    {argv : List Arg} (h : cliDispatchLine sh line fw =
      Fw.goto { fw with expandBuf := buf } (.dispatch sh argv) cliOk) :
    ArgVector (Fw.words { fw with expandBuf := buf } argv) := by
  rcases dispatchLine_cases sh line fw with ⟨rc, -, he⟩ | ⟨toks, buf', off, htoks,
    ⟨-, he⟩ | ⟨argv', hargv, he⟩⟩
  · rw [he] at h
    exact absurd (congrArg Ran.push h) (by simp [Fw.ret, Fw.goto])
  · rw [he] at h
    exact absurd (congrArg Ran.push h) (by simp [Fw.ret, Fw.goto])
  · rw [he] at h
    obtain rfl : buf' = buf := congrArg (fun r => r.fw.expandBuf) h
    obtain rfl : argv' = argv := by simpa [Fw.goto] using congrArg Ran.push h
    rcases expandArgv_words fw.vars fw.shell toks fw.expandBuf with ⟨-, hno⟩
      | ⟨hfit, argv, hsome, hmap⟩
    · rw [hargv] at hno
      exact absurd hno (by simp)
    · rw [hargv] at hsome hmap
      obtain rfl := Option.some.inj hsome
      have hwords : Fw.words { fw with expandBuf := buf' } argv' = wordsOf fw.vars fw.shell toks :=
        hmap
      rw [hwords]
      refine ⟨?_, ?_, ?_, Nat.le_trans (wordsSize_wordsOf _ _ _) hfit.2⟩
      · exact mt List.map_eq_nil_iff.mp (lineTokens_ne_nil htoks)
      · rw [wordsOf, List.length_map]
        exact lineTokens_length htoks
      · intro word hword
        obtain ⟨tok, -, rfl⟩ := List.mem_map.mp hword
        exact CString.ofBuffer_nul _

/-- **Any command can be typed**, and nothing else. Whatever line is dispatched, the command gets at
least its name and at most sixteen strings that fit into `g_expand_buf`; and whatever these are, if
they hold a dollar only while a variable does too, the line that quotes them is dispatched as them,
in any array that it fits into, and means what they mean. -/
theorem any_command_typed {name : List UInt8} (hname : validVarName name = true)
    (sh : Shell) (fw : Fw) :
    (∀ {n : Nat} {line : Buffer n} {buf : ExpandBuf} {argv : List Arg},
      cliDispatchLine sh line fw = Fw.goto { fw with expandBuf := buf } (.dispatch sh argv) cliOk →
        ArgVector (Fw.words { fw with expandBuf := buf } argv)) ∧
    ∀ words, ArgVector words → (∀ word ∈ words, 36 ∈ word → varsGet name fw.vars = some [36]) →
      ∀ n, (quoteLine name words).length < n →
        (∃ buf argv, cliDispatchLine sh (Buffer.ofString n (quoteLine name words)) fw =
            Fw.goto { fw with expandBuf := buf } (.dispatch sh argv) cliOk ∧
          Fw.words { fw with expandBuf := buf } argv = words) ∧
        ∀ runs rc st', LineDoes runs (Buffer.ofString n (quoteLine name words)) fw.store rc st' ↔
          (parse words).Does runs fw.store rc st' := by
  refine ⟨dispatch_argVector, fun words h hdollar n hlen => ?_⟩
  have htokens := lineTokens_quoteLine hname h hlen
  have hwords := @wordsOf_tokenWords name fw.vars fw.shell hname words hdollar h.nul
  have hfit : Expandable fw.vars fw.shell (words.map (tokenWord name)) := by
    refine ⟨namesShort_tokenWords hname words, ?_⟩
    rw [expandedSize_tokenWords hname hdollar]
    exact h.size
  constructor
  · rcases expandArgv_words fw.vars fw.shell (words.map (tokenWord name)) fw.expandBuf with
      ⟨hno, -⟩ | ⟨-, argv, hsome, hmap⟩
    · exact absurd hfit hno
    · rcases dispatchLine_cases sh (Buffer.ofString n (quoteLine name words)) fw with ⟨rc, hno, -⟩ |
        ⟨toks, buf, off, htoks, ⟨hno, -⟩ | ⟨argv', hargv, he⟩⟩
      · exact absurd (htokens.symm.trans hno) (by simp)
      · obtain rfl := Except.ok.inj (htokens.symm.trans htoks)
        rw [hno] at hsome
        exact absurd hsome (by simp)
      · obtain rfl := Except.ok.inj (htokens.symm.trans htoks)
        rw [hargv] at hsome hmap
        obtain rfl := Option.some.inj hsome
        exact ⟨buf, argv', he, hmap.trans hwords⟩
  · intro runs rc st'
    have hdoes := @lineDoes_words n _ runs _ rc fw.store st' htokens hfit
    rw [show wordsOf fw.store.vars fw.store.shell _ = words from hwords] at hdoes
    exact hdoes

/-- `set D $` has been typed. -/
def dollarSet : Fw :=
  { Fw.boot erased with vars := (varsSet (ascii "D") [36] VarTable.empty).getD VarTable.empty }

/-- A quote, a backslash and what would be an argument of a script, and an empty string. -/
theorem quotedEcho_typed : ∃ buf argv,
    cliDispatchLine .usb (keyed "\"echo\" \"\\\"\\\\ $\x7bD\x7d1\" \"\"") dollarSet =
      Fw.goto { dollarSet with expandBuf := buf } (.dispatch .usb argv) cliOk ∧
    Fw.words { dollarSet with expandBuf := buf } argv = [ascii "echo", ascii "\"\\ $1", []] := by
  have hline : quoteLine (ascii "D") [ascii "echo", ascii "\"\\ $1", []] =
      ascii "\"echo\" \"\\\"\\\\ $\x7bD\x7d1\" \"\"" := by decide +kernel
  have hvector : ArgVector [ascii "echo", ascii "\"\\ $1", []] :=
    ⟨by simp, by decide, by decide +kernel, by decide +kernel⟩
  have hdollar : varsGet (ascii "D") dollarSet.vars = some [36] := by decide +kernel
  have htyped := ((any_command_typed (by decide +kernel) .usb dollarSet).2 _ hvector (fun _ _ _ =>
    hdollar) cliLineMax
    (by rw [hline]; decide +kernel)).1
  rw [hline] at htyped
  exact htyped

end PicoBLE.Cli
