import PicoBLE.Cli.Commands
import PicoBLE.Cli.Expansion
import PicoBLE.Cli.Tokenizer

/-!
# A line of plain words

A word without blanks, quotes and dollars means itself: the tokenizer takes it
as it is, and there is nothing in it to expand. So a line of such words, with
single blanks between them, is dispatched as these words, whatever variables
and arguments there are.
-/

namespace PicoBLE.Cli

open PicoBLE.System (VarTable)

/-- No blank, no double quote and no dollar. -/
def isPlain (c : UInt8) : Bool := !isWs c && c ≠ 34 && c ≠ 36

theorem isPlain_iff {c : UInt8} : isPlain c = true ↔ isWs c = false ∧ c ≠ 34 ∧ c ≠ 36 := by
  simp [isPlain, and_assoc]

/-- The words with a blank between any two of them. -/
def joined (words : List (List UInt8)) : List UInt8 := [32].intercalate words

theorem joined_cons {word : List UInt8} {words : List (List UInt8)} (h : words ≠ []) :
    joined (word :: words) = word ++ 32 :: joined words := by
  rw [joined, List.intercalate_cons_of_ne_nil h, List.append_assoc]
  rfl

theorem joined_singleton (word : List UInt8) : joined [word] = word := List.intercalate_singleton

/-- Two words with the blank are one. -/
theorem joined_merge (word word' : List UInt8) (words : List (List UInt8)) :
    joined (word :: word' :: words) = joined ((word ++ 32 :: word') :: words) := by
  rw [joined_cons (List.cons_ne_nil word' words)]
  cases words with
  | nil => rw [joined_singleton, joined_singleton]
  | cons word'' words =>
    rw [joined_cons (List.cons_ne_nil word'' words), joined_cons (List.cons_ne_nil word'' words),
      List.append_assoc]
    rfl

theorem length_le_joined (word : List UInt8) (words : List (List UInt8)) :
    word.length ≤ (joined (word :: words)).length := by
  cases words with
  | nil => rw [joined_singleton]
  | cons word' words =>
    rw [joined_cons (List.cons_ne_nil word' words), List.length_append]
    exact Nat.le_add_right _ _

theorem joined_nul {words : List (List UInt8)} (h : ∀ word ∈ words, 0 ∉ word) :
    0 ∉ joined words := by
  induction words with
  | nil => exact List.not_mem_nil
  | cons word words ih =>
    obtain ⟨hword, hwords⟩ := List.forall_mem_cons.mp h
    cases words with
    | nil => rwa [joined_singleton]
    | cons word' words =>
      rw [joined_cons (by simp), List.mem_append, List.mem_cons]
      rintro (hmem | hmem | hmem)
      · exact hword hmem
      · exact absurd hmem (by decide)
      · exact ih hwords hmem

/-! ## The tokens -/

theorem refToken_plain {word rest : List UInt8} (h : ∀ c ∈ word, isPlain c = true)
    (hrest : ∀ c ∈ rest.head?, isWs c = true) :
    refToken false (word ++ rest) = some (word, rest) := by
  induction word with
  | nil =>
    cases rest with
    | nil => rfl
    | cons c rest => rw [List.nil_append, refToken, if_pos (hrest c rfl)]
  | cons c word ih =>
    obtain ⟨hc, hword⟩ := List.forall_mem_cons.mp h
    obtain ⟨hws, hquote, -⟩ := isPlain_iff.mp hc
    rw [List.cons_append, refToken, if_neg (by rw [hws]; exact Bool.false_ne_true),
      if_neg hquote, ih hword]
    rfl

/-- **The words are the tokens.** -/
theorem refTokens_joined {words : List (List UInt8)} {room : Nat} (hroom : words.length ≤ room)
    (h : ∀ word ∈ words, word ≠ [] ∧ ∀ c ∈ word, isPlain c = true) :
    refTokens room (joined words) = .ok words := by
  induction words generalizing room with
  | nil =>
    unfold refTokens
    rfl
  | cons word words ih =>
    obtain ⟨⟨hne, hword⟩, hwords⟩ := List.forall_mem_cons.mp h
    obtain ⟨room, rfl⟩ :=
      Nat.exists_eq_succ_of_ne_zero (Nat.ne_of_gt (Nat.lt_of_lt_of_le (Nat.succ_pos _) hroom))
    have htail := ih (Nat.le_of_succ_le_succ hroom) hwords
    -- what stands behind the first word
    obtain ⟨rest, hjoin, hblank, hrest⟩ : ∃ rest, joined (word :: words) = word ++ rest ∧
        (∀ c ∈ rest.head?, isWs c = true) ∧ refTokens room rest = .ok words := by
      cases words with
      | nil =>
        exact ⟨[], by rw [joined_singleton, List.append_nil], fun c hc =>
          absurd hc (by simp), htail⟩
      | cons word' words =>
        refine ⟨32 :: joined (word' :: words), joined_cons (by simp), fun c hc => ?_, ?_⟩
        · obtain rfl := Option.some.inj hc
          rfl
        · rw [refTokens_blank rfl, htail]
    obtain ⟨c, cs, rfl⟩ := List.exists_cons_of_ne_nil hne
    have hws : isWs c = false := (isPlain_iff.mp (hword c List.mem_cons_self)).1
    have hfront : (joined ((c :: cs) :: words)).dropWhile isWs = c :: (cs ++ rest) := by
      rw [hjoin, List.cons_append,
        List.dropWhile_cons_of_neg (by rw [hws]; exact Bool.false_ne_true)]
    unfold refTokens
    rw [hfront]
    dsimp only
    rw [← List.cons_append, refToken_plain hword hblank]
    dsimp only
    rw [hrest]
    rfl

/-! ## The expansion -/

section

variable {vars : VarTable} {shell : ShellState}

theorem tokenParts_plain {word : List UInt8} (h : 36 ∉ word) :
    tokenParts word = word.map .char := by
  rw [tokenParts]
  induction word with
  | nil => rfl
  | cons c word ih =>
    obtain ⟨hc, hword⟩ := not_or.mp (mt List.mem_cons.mpr h)
    rw [List.length_cons, partsOf, if_neg (Ne.symm hc), ih hword, List.map_cons]

theorem expansionOf_plain {word : List UInt8} (h : 36 ∉ word) :
    expansionOf vars shell word = word := by
  rw [expansionOf, tokenParts_plain h, List.flatMap_map]
  exact List.flatMap_singleton' word

theorem namesShort_plain {words : List (List UInt8)} (h : ∀ word ∈ words, 36 ∉ word) :
    NamesShort words := by
  intro word hword part hpart
  rw [tokenParts_plain (h word hword)] at hpart
  obtain ⟨c, -, rfl⟩ := List.mem_map.mp hpart
  rfl

/-- The arguments take as much room as the line. -/
theorem expandedSize_plain {words : List (List UInt8)} (hne : words ≠ [])
    (h : ∀ word ∈ words, 36 ∉ word) :
    expandedSize vars shell words = (joined words).length + 1 := by
  induction words with
  | nil => exact absurd rfl hne
  | cons word words ih =>
    obtain ⟨hword, hwords⟩ := List.forall_mem_cons.mp h
    have hsize : expandedSize vars shell (word :: words) =
        word.length + 1 + expandedSize vars shell words := by
      rw [expandedSize, List.map_cons, List.sum_cons, expansionOf_plain hword]
      rfl
    cases words with
    | nil =>
      rw [hsize, joined_singleton]
      rfl
    | cons word' words =>
      rw [hsize, ih (List.cons_ne_nil word' words) hwords,
        joined_cons (List.cons_ne_nil word' words), List.length_append, List.length_cons]
      omega

end

/-! ## Dispatch -/

/-- A word of a plain line. -/
structure PlainWord (word : List UInt8) : Prop where
  ne : word ≠ []
  nul : 0 ∉ word
  plain : ∀ c ∈ word, isPlain c = true

theorem PlainWord.dollar {word : List UInt8} (h : PlainWord word) : 36 ∉ word :=
  fun hmem => (isPlain_iff.mp (h.plain 36 hmem)).2.2 rfl

/-- The arguments that the words have become. -/
theorem argBytes_plain {vars : VarTable} {shell : ShellState} {buf : ExpandBuf} {argv : List Arg}
    {words : List (List UInt8)} (hbytes : List.Forall₂ (ArgBytes vars shell buf) argv words)
    (h : ∀ word ∈ words, PlainWord word) : argv.map (fun a => buf.str a.ptr) = words := by
  induction hbytes with
  | nil => rfl
  | cons harg _ ih =>
    obtain ⟨hword, hwords⟩ := List.forall_mem_cons.mp h
    have hself := @expansionOf_plain vars shell _ hword.dollar
    rw [List.map_cons, ih hwords, harg.str (by rw [hself]; exact hword.nul), hself]

theorem lineTokens_plain {n : Nat} {words : List (List UInt8)} (hne : words ≠ [])
    (hmax : words.length ≤ cliMaxArgs) (h : ∀ word ∈ words, PlainWord word)
    (hlen : (joined words).length < n) :
    lineTokens (Buffer.ofString n (joined words)) = .ok words := by
  have hbytes := Buffer.ofString_bytes hlen
  have hnul := joined_nul fun word hword => (h word hword).nul
  have hstr : (Buffer.ofString n (joined words)).str 0 = joined words := by
    rw [Buffer.str, hbytes, List.drop_zero, CString.ofBuffer_append hnul]
  have hparse : argvOf (cliParse (Buffer.ofString n (joined words)) cliMaxArgs) = .ok words := by
    rw [cliParse_ref (by rw [hbytes]; simp) (by decide), hstr]
    exact refTokens_joined hmax fun word hword => ⟨(h word hword).ne, (h word hword).plain⟩
  have hfirst : (Buffer.ofString n (joined words)).get 0 ≠ 0 := by
    obtain ⟨word, words, rfl⟩ := List.exists_cons_of_ne_nil hne
    obtain ⟨c, cs, rfl⟩ := List.exists_cons_of_ne_nil (h word List.mem_cons_self).ne
    rw [Buffer.get, hbytes, joined, List.intercalate_cons_cons_left]
    exact fun h0 => (h (c :: cs) List.mem_cons_self).nul (h0 ▸ List.mem_cons_self)
  unfold lineTokens
  rw [if_neg hfirst, hparse]
  cases words with
  | nil => exact absurd rfl hne
  | cons word words => rfl

/-- **A line of plain words is dispatched as these words**, if there is room for them. -/
theorem dispatchLine_plain {n : Nat} {words : List (List UInt8)} (hne : words ≠ [])
    (hmax : words.length ≤ cliMaxArgs) (h : ∀ word ∈ words, PlainWord word)
    (hlen : (joined words).length < n) (hn : n ≤ cliExpandBufSize) (sh : Shell) (fw : Fw) :
    ∃ buf argv, cliDispatchLine sh (Buffer.ofString n (joined words)) fw =
        Fw.goto { fw with expandBuf := buf } (.dispatch sh argv) cliOk ∧
      argv.map (Fw.str { fw with expandBuf := buf }) = words := by
  have hdollar : ∀ word ∈ words, 36 ∉ word := fun word hword => (h word hword).dollar
  have htokens := lineTokens_plain hne hmax h hlen
  have hfits : (expandFrom fw.vars fw.shell words fw.expandBuf 0).2.2.isSome = true := by
    rw [expandFrom_isSome (Nat.zero_le _), expandedSize_plain hne hdollar]
    exact ⟨namesShort_plain hdollar, by omega⟩
  rcases dispatchLine_cases sh (Buffer.ofString n (joined words)) fw with ⟨rc, hno, -⟩ |
    ⟨toks, buf, off, htoks, ⟨hno, -⟩ | ⟨argv, hargv, he⟩⟩
  · exact absurd (htokens.symm.trans hno) (by simp)
  · obtain rfl := Except.ok.inj (htokens.symm.trans htoks)
    rw [expandArgv] at hno
    rw [hno] at hfits
    exact absurd hfits (by simp)
  · obtain rfl := Except.ok.inj (htokens.symm.trans htoks)
    rw [expandArgv] at hargv
    have hbytes := expandFrom_bytes (Nat.zero_le _) (congrArg (fun r => r.2.2) hargv)
    rw [hargv] at hbytes
    exact ⟨buf, argv, he, argBytes_plain hbytes h⟩

end PicoBLE.Cli
