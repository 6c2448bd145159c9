import PicoBLE.Cli.Parser

/-!
# What the tokenizer computes

The reference reads a line from left to right and makes its tokens elsewhere.
`cli_parse` makes them in the line itself, so what it has still to read must be
intact:

* **P1.** The write cursor is never ahead of the read cursor, and from the read cursor on
  the array is the line as it was.
* **P2.** What has been written is the tokens so far, each with its NUL, in front of the
  write cursor.

The NUL of a token is the one place where P1 could fail. It goes behind the
last character of the token, and that is where the read cursor stands when
nothing has been taken out; the blank there is skipped first for that reason.
-/

namespace PicoBLE.Cli

/-! ## The reference -/

/-- The token at the front of a line, and what stands behind it; `none` when a quote is not closed.
Inside quotes everything is taken literally, but for `\"` and `\\`. -/
def refToken : Bool → List UInt8 → Option (List UInt8 × List UInt8)
  | true, [] => none
  | false, [] => some ([], [])
  | true, 92 :: 34 :: s => (refToken true s).map fun r => (34 :: r.1, r.2)
  | true, 92 :: 92 :: s => (refToken true s).map fun r => (92 :: r.1, r.2)
  | true, c :: s =>
    if c = 34 then refToken false s else (refToken true s).map fun r => (c :: r.1, r.2)
  | false, c :: s =>
    if isWs c then some ([], c :: s)
    else if c = 34 then refToken true s
    else (refToken false s).map fun r => (c :: r.1, r.2)

/-- The tokens of a line, when there may be `room` of them. -/
def refTokens (room : Nat) (line : List UInt8) : Except ParseError (List (List UInt8)) :=
  match line.dropWhile isWs with
  | [] => .ok []
  | c :: s =>
    match room with
    | 0 => .error .tooManyArgs
    | room + 1 =>
      match refToken false (c :: s) with
      | none => .error .unclosedQuote
      | some (tok, rest) => (refTokens room rest).map (tok :: ·)

example : refTokens 16 (CString.ascii "  set \"a b\"\\c x\"\\\\\\\"\"")
    = .ok [CString.ascii "set", CString.ascii "a b\\c", CString.ascii "x\\\""] := by decide

/-- A backslash, and what it can stand in front of. -/
abbrev Escape (c : UInt8) (s : List UInt8) : Prop := c = 92 ∧ (s.headD 0 = 34 ∨ s.headD 0 = 92)

theorem refToken_quoted {c : UInt8} {s : List UInt8} (h : ¬ Escape c s) :
    refToken true (c :: s) =
      if c = 34 then refToken false s else (refToken true s).map fun r => (c :: r.1, r.2) := by
  rw [refToken]
  · rintro s' rfl rfl
    exact h ⟨rfl, .inl rfl⟩
  · rintro s' rfl rfl
    exact h ⟨rfl, .inr rfl⟩

theorem refToken_escape {c : UInt8} {s : List UInt8} (h : Escape c s) :
    ∃ x s', s = x :: s' ∧ refToken true (c :: s) = (refToken true s').map fun r =>
    (x :: r.1, r.2) := by
  obtain ⟨rfl, hx⟩ := h
  cases s with
  | nil => exact absurd hx (by decide)
  | cons x s' =>
    refine ⟨x, s', rfl, ?_⟩
    rcases hx with hx | hx
    · obtain rfl : x = 34 := hx
      rw [refToken]
    · obtain rfl : x = 92 := hx
      rw [refToken]

/-! ## What is still to be read -/

variable {n : Nat}

/-- P1, with the part of the line that is still to be read. -/
structure Ahead (line : Buffer n) (rest : List UInt8) (c : Cursors n) : Prop where
  behind : c.dst ≤ c.src
  same : c.buf.bytes.drop c.src = line.bytes.drop c.src
  text : ∃ tail, line.bytes.drop c.src = rest ++ 0 :: tail
  nul : 0 ∉ rest
  stop : c.src + rest.length = (line.str 0).length

theorem Ahead.get {line : Buffer n} {rest : List UInt8} {c : Cursors n}
    (h : Ahead line rest c) {k : Nat} (hk : k ≤ rest.length) :
    c.buf.get (c.src + k) = line.get (c.src + k) ∧
      c.buf.get (c.src + k) = (rest ++ [0]).getD k 0 := by
  obtain ⟨tail, htext⟩ := h.text
  have hdrop : ∀ b : Buffer n, b.get (c.src + k) = (b.bytes.drop c.src).getD k 0 := by
    intro b
    rw [Buffer.get, List.getD_eq_getElem?_getD, List.getD_eq_getElem?_getD, List.getElem?_drop]
  refine ⟨by rw [hdrop, hdrop, h.same], ?_⟩
  rw [hdrop, h.same, htext, List.append_cons, List.getD_eq_getElem?_getD,
    List.getD_eq_getElem?_getD,
    List.getElem?_append_left (by rw [List.length_append, List.length_singleton]; omega)]

/-- At the end of the line stands its NUL. -/
theorem Ahead.char_nil {line : Buffer n} {c : Cursors n} (h : Ahead line [] c) : c.char = 0 :=
  (h.get (Nat.le_refl 0)).2

theorem Ahead.char_cons {line : Buffer n} {a : UInt8} {s : List UInt8} {c : Cursors n}
    (h : Ahead line (a :: s) c) : c.char = a ∧ a ≠ 0 ∧ c.next = s.headD 0 := by
  refine ⟨(h.get (Nat.zero_le _)).2, fun h0 => h.nul (h0 ▸ List.mem_cons_self), ?_⟩
  rw [Cursors.next, (h.get (k := 1) (by simp)).2]
  cases s <;> rfl

/-- On over some characters, when nothing is written behind them. -/
theorem Ahead.move {line : Buffer n} {p s : List UInt8} {c c' : Cursors n}
    (h : Ahead line (p ++ s) c) (hsrc : c'.src = c.src + p.length) (hdst : c'.dst ≤ c'.src)
    (hbuf : c'.buf.bytes.drop c'.src = c.buf.bytes.drop c'.src) : Ahead line s c' := by
  obtain ⟨tail, htext⟩ := h.text
  have hstop := h.stop
  refine ⟨hdst, ?_, ⟨tail, ?_⟩, fun hs => h.nul (List.mem_append_right _ hs), ?_⟩
  · rw [hbuf, hsrc, ← List.drop_drop, h.same, List.drop_drop]
  · rw [hsrc, ← List.drop_drop, htext, List.append_assoc, List.drop_left]
  · rw [hsrc, ← hstop, List.length_append]
    omega

theorem Ahead.skip {line : Buffer n} {p s : List UInt8} {c : Cursors n}
    (h : Ahead line (p ++ s) c) :
    Ahead line s (c.skip p.length) :=
  h.move rfl (Nat.le_trans h.behind (Nat.le_add_right _ _)) rfl

/-- A character written over what has been read. -/
theorem Ahead.emit {line : Buffer n} {p s : List UInt8} {c : Cursors n}
    (h : Ahead line (p ++ s) c) (x : UInt8) (hp : p ≠ []) : Ahead line s (c.emit x p.length) := by
  have hbehind := h.behind
  have hpos : 0 < p.length := List.length_pos_iff.mpr hp
  refine h.move rfl ?_ (Buffer.set_drop x ?_)
  · show c.dst + 1 ≤ c.src + p.length
    omega
  · show c.dst < c.src + p.length
    omega

/-! ## One token -/

/-- P2, for one token: it has been written at the write cursor, and nothing before it. -/
structure Wrote (c : Cursors n) (tok : List UInt8) (c' : Cursors n) : Prop where
  dst : c'.dst = c.dst + tok.length
  bytes : c'.buf.bytes.take c'.dst = c.buf.bytes.take c.dst ++ tok
  /-- A string that ends in front of the write cursor is still there. -/
  strings : ∀ p, p + (c.buf.str p).length < c.dst → c'.buf.str p = c.buf.str p

theorem Wrote.refl (c : Cursors n) : Wrote c [] c := ⟨rfl, (List.append_nil _).symm, fun _ _ => rfl⟩

theorem Wrote.skip {c c' : Cursors n} {tok : List UInt8} {k : Nat} (h : Wrote (c.skip k) tok c') :
    Wrote c tok c' :=
  ⟨h.dst, h.bytes, h.strings⟩

theorem Wrote.emit {c c' : Cursors n} {tok : List UInt8} {x : UInt8} {k : Nat}
    (h : Wrote (c.emit x k) tok c') (hlt : c.dst < n) : Wrote c (x :: tok) c' := by
  have hset : (c.buf.set c.dst x).bytes.take (c.dst + 1) = c.buf.bytes.take c.dst ++ [x] := by
    have hlen : c.dst < c.buf.bytes.length := by rw [c.buf.size]; exact hlt
    show (c.buf.bytes.set c.dst x).take (c.dst + 1) = _
    rw [List.take_add_one, List.take_set_of_le (Nat.le_refl _)]
    simp [hlen]
  refine ⟨?_, ?_, fun p hp => ?_⟩
  · rw [h.dst, List.length_cons]
    show c.dst + 1 + tok.length = _
    omega
  · rw [h.bytes]
    show (c.buf.set c.dst x).bytes.take (c.dst + 1) ++ tok = _
    rw [hset, List.append_assoc, List.singleton_append]
  · have hstr : (c.emit x k).buf.str p = c.buf.str p := Buffer.str_set_above x hp
    rw [h.strings p (by rw [hstr]; exact Nat.lt_succ_of_lt hp), hstr]

/-- There is room at the write cursor. -/
theorem Ahead.dst_lt {line : Buffer n} {rest : List UInt8} {c : Cursors n} (h : Ahead line rest c) :
    c.dst < n := by
  obtain ⟨tail, htext⟩ := h.text
  have hlen := congrArg List.length htext
  have hbehind := h.behind
  rw [List.length_drop, line.size, List.length_append, List.length_cons] at hlen
  omega

/-- What the loop over a token has to do, against the reference. -/
def TokenRead (line : Buffer n) (c : Cursors n) (rest : List UInt8) (result : Cursors n × Bool) :
    Option (List UInt8 × List UInt8) → Prop
  | none => result.2 = true
  | some (tok, rest') =>
    result.2 = false ∧ Ahead line rest' result.1 ∧ Wrote c tok result.1 ∧ 0 ∉ tok ∧
      (∀ b ∈ rest'.head?, isWs b = true) ∧ rest'.length ≤ rest.length

/-- Quotes are passed over. -/
theorem TokenRead.skip {line : Buffer n} {c : Cursors n} {a : UInt8} {s : List UInt8}
    {result : Cursors n × Bool} {ref : Option (List UInt8 × List UInt8)}
    (h : TokenRead line (c.skip 1) s result ref) :
    TokenRead line c (a :: s) result ref := by
  cases ref with
  | none => exact h
  | some r =>
    obtain ⟨hdone, hahead, hwrote, hnul, hblank, hlen⟩ := h
    exact ⟨hdone, hahead, hwrote.skip, hnul, hblank, Nat.le_succ_of_le hlen⟩

/-- Every other character is the next one of the token. -/
theorem TokenRead.emit {line : Buffer n} {c : Cursors n} {p s : List UInt8} {x : UInt8}
    {result : Cursors n × Bool} {ref : Option (List UInt8 × List UInt8)} (hx : x ≠ 0)
    (hlt : c.dst < n) (h : TokenRead line (c.emit x p.length) s result ref) :
    TokenRead line c (p ++ s) result (ref.map fun r => (x :: r.1, r.2)) := by
  cases ref with
  | none => exact h
  | some r =>
    obtain ⟨hdone, hahead, hwrote, hnul, hblank, hlen⟩ := h
    refine ⟨hdone, hahead, hwrote.emit hlt, ?_, hblank, ?_⟩
    · rintro (_ | ⟨_, hmem⟩)
      · exact hx rfl
      · exact hnul hmem
    · rw [List.length_append]
      exact Nat.le_trans hlen (Nat.le_add_left _ _)

/-- At the end of the line the loop ends. -/
theorem tokenRead_end {line : Buffer n} {c : Cursors n} (h : Ahead line [] c) (q : Bool) :
    TokenRead line c [] (c, q) (refToken q []) := by
  cases q with
  | true => rfl
  | false =>
    exact ⟨rfl, h, Wrote.refl c, List.not_mem_nil, fun b hb => absurd hb (by simp), Nat.le_refl _⟩

/-- What is left is in the array. -/
theorem Ahead.length_le {line : Buffer n} {rest : List UInt8} {c : Cursors n}
    (h : Ahead line rest c) :
    rest.length ≤ n := by
  obtain ⟨tail, htext⟩ := h.text
  have hlen := congrArg List.length htext
  rw [List.length_drop, line.size, List.length_append] at hlen
  omega

/-- A quote begins or ends a stretch in quotes, and any other character is taken. -/
theorem tokenRead_char {line : Buffer n} {a : UInt8} {s : List UInt8} {c : Cursors n} {fuel : Nat}
    (h : Ahead line (a :: s) c) (hne : a ≠ 0) (q : Bool)
    (ih : ∀ {c : Cursors n} {q : Bool}, Ahead line s c →
      TokenRead line c s (copyToken fuel q c) (refToken q s)) :
    TokenRead line c (a :: s)
      (if a = 34 then copyToken fuel (!q) (c.skip 1) else copyToken fuel q (c.emit a 1))
      (if a = 34 then refToken (!q) s else (refToken q s).map fun r => (a :: r.1, r.2)) := by
  by_cases hquote : a = 34
  · rw [if_pos hquote, if_pos hquote]
    exact (ih (Ahead.skip (p := [a]) h)).skip
  · rw [if_neg hquote, if_neg hquote]
    exact TokenRead.emit (p := [a]) hne h.dst_lt (ih (Ahead.emit (p := [a]) h a (by simp)))

/-- **The loop over one token** makes the token of the reference, or ends inside quotes where the
reference finds no token. -/
theorem copyToken_ref {line : Buffer n} {rest : List UInt8} {c : Cursors n} {q : Bool} {fuel : Nat}
    (h : Ahead line rest c) (hfuel : rest.length ≤ fuel) :
    TokenRead line c rest (copyToken fuel q c) (refToken q rest) := by
  induction fuel generalizing rest c q with
  | zero =>
    obtain rfl := List.length_eq_zero_iff.mp (Nat.le_zero.mp hfuel)
    exact tokenRead_end h q
  | succ fuel ih =>
    cases rest with
    | nil =>
      rw [copyToken, if_pos h.char_nil]
      exact tokenRead_end h q
    | cons a s =>
      obtain ⟨hchar, hne, hnext⟩ := h.char_cons
      have hlen : s.length ≤ fuel := Nat.le_of_succ_le_succ hfuel
      rw [copyToken, hchar, hnext, if_neg hne]
      cases q with
      | true =>
        rw [if_pos rfl]
        by_cases hesc : Escape a s
        · -- the second character is taken, and both are passed
          obtain ⟨x, s', rfl, href⟩ := refToken_escape hesc
          rw [if_pos hesc, href]
          have hx : x ≠ 0 := fun h0 => h.nul (h0 ▸ List.mem_cons_of_mem _ List.mem_cons_self)
          exact TokenRead.emit (p := [a, x]) hx h.dst_lt
            (ih (Ahead.emit (p := [a, x]) h x (by simp)) (Nat.le_of_succ_le hlen))
        · rw [if_neg hesc, refToken_quoted hesc]
          exact tokenRead_char h hne true fun hnext => ih hnext hlen
      | false =>
        rw [if_neg Bool.false_ne_true, refToken]
        cases hws : isWs a with
        | true =>
          rw [if_pos rfl, if_pos rfl]
          refine ⟨rfl, h, Wrote.refl c, List.not_mem_nil, fun b hb => ?_, Nat.le_refl _⟩
          obtain rfl := Option.some.inj hb
          exact hws
        | false =>
          rw [if_neg Bool.false_ne_true, if_neg Bool.false_ne_true]
          exact tokenRead_char h hne false fun hnext => ih hnext hlen

/-- A token of the line: there is none, or it has been made. -/
theorem copyToken_cases {line : Buffer n} {rest : List UInt8} {c : Cursors n}
    (h : Ahead line rest c) :
    (refToken false rest = none ∧ ∃ token, copyToken n false c = (token, true)) ∨
      ∃ tok rest' token, refToken false rest = some (tok, rest') ∧
      copyToken n false c = (token, false) ∧
        Ahead line rest' token ∧ Wrote c tok token ∧ 0 ∉ tok ∧ (∀ b ∈ rest'.head?, isWs b = true) ∧
        rest'.length ≤ rest.length := by
  have htoken := @copyToken_ref n line rest c false n h h.length_le
  generalize copyToken n false c = result at htoken
  obtain ⟨token, q⟩ := result
  cases href : refToken false rest with
  | none =>
    rw [href] at htoken
    obtain rfl : q = true := htoken
    exact .inl ⟨rfl, token, rfl⟩
  | some r =>
    rw [href] at htoken
    obtain ⟨hdone, hahead⟩ := htoken
    obtain rfl : q = false := hdone
    exact .inr ⟨r.1, r.2, token, rfl, rfl, hahead⟩

/-! ## The line -/

theorem skipBlanks_ref {line : Buffer n} {rest : List UInt8} {c : Cursors n} {fuel : Nat}
    (h : Ahead line rest c) (hfuel : rest.length ≤ fuel) :
    Ahead line (rest.dropWhile isWs) (skipBlanks fuel c) ∧ (skipBlanks fuel c).buf = c.buf ∧
      (skipBlanks fuel c).dst = c.dst := by
  induction fuel generalizing rest c with
  | zero =>
    obtain rfl := List.length_eq_zero_iff.mp (Nat.le_zero.mp hfuel)
    exact ⟨h, rfl, rfl⟩
  | succ fuel ih =>
    rw [skipBlanks]
    cases rest with
    | nil =>
      rw [h.char_nil, if_neg (by decide)]
      exact ⟨h, rfl, rfl⟩
    | cons a s =>
      rw [h.char_cons.1]
      cases hws : isWs a with
      | true =>
        rw [if_pos rfl, List.dropWhile_cons_of_pos hws]
        exact ih (Ahead.skip (p := [a]) h) (Nat.le_of_succ_le_succ hfuel)
      | false =>
        rw [if_neg Bool.false_ne_true,
          List.dropWhile_cons_of_neg (by rw [hws]; exact Bool.false_ne_true)]
        exact ⟨h, rfl, rfl⟩

/-- The NUL behind a token: the token is a string of the array, those before it are too, and the
line is still intact. -/
theorem endToken_ref {line : Buffer n} {rest tok : List UInt8} {c c' : Cursors n}
    (h : Ahead line rest c') (hw : Wrote c tok c') (hnul : 0 ∉ tok) (hle : c.dst ≤ n) :
    c'.endToken.dst = c.dst + tok.length + 1 ∧ c'.endToken.buf.str c.dst = tok ∧
      (∀ p, p + (c.buf.str p).length < c.dst → c'.endToken.buf.str p = c.buf.str p) ∧
      (rest = [] → c'.endToken.char = 0) ∧ ∀ b s, rest = b :: s → Ahead line s c'.endToken := by
  have hbuf : c'.endToken.buf = c'.buf.set c'.dst 0 ∧ c'.endToken.dst = c'.dst + 1 := by
    unfold Cursors.endToken
    split <;> exact ⟨rfl, rfl⟩
  obtain ⟨hset, hdst⟩ := hbuf
  refine ⟨by rw [hdst, hw.dst], ?_, fun p hp => ?_, fun hrest => ?_, fun b s hrest => ?_⟩
  · -- the token, and the NUL behind it
    have hlt : c'.dst < c'.buf.bytes.length := by rw [c'.buf.size]; exact h.dst_lt
    have hlen : (c.buf.bytes.take c.dst).length = c.dst := Buffer.take_length hle
    have hfront : (c'.buf.set c'.dst 0).bytes.take (c'.dst + 1) =
        c.buf.bytes.take c.dst ++ (tok ++ [0]) := by
      show (c'.buf.bytes.set c'.dst 0).take (c'.dst + 1) = _
      rw [List.take_add_one, List.take_set_of_le (Nat.le_refl _), hw.bytes]
      simp [hlt]
    have hwhole := List.take_append_drop (c'.dst + 1) (c'.buf.set c'.dst 0).bytes
    rw [hfront, List.append_assoc, List.append_assoc] at hwhole
    rw [hset, Buffer.str, ← hwhole, List.drop_left' hlen]
    exact CString.ofBuffer_append hnul _
  · have hstr := hw.strings p hp
    have hin : p + (c'.buf.str p).length < c'.dst := by
      rw [hstr, hw.dst]
      omega
    rw [hset, Buffer.str_set_above 0 hin, hstr]
  · -- the NUL goes on the one that ends the line, or in front of it
    subst hrest
    have hchar := h.char_nil
    have hget : (c'.buf.set c'.dst 0).get c'.src = 0 := by
      by_cases heq : c'.dst = c'.src
      · have hlt : c'.src < c'.buf.bytes.length := by
          rw [c'.buf.size, ← heq]
          exact h.dst_lt
        simp [Buffer.get, Buffer.set, List.getD_eq_getElem?_getD, heq, hlt]
      · have hkeep : (c'.buf.set c'.dst 0).get c'.src = c'.buf.get c'.src := by
          simp [Buffer.get, Buffer.set, List.getD_eq_getElem?_getD, heq]
        exact hkeep.trans hchar
    rw [Cursors.endToken, if_neg (not_not.mpr hchar)]
    exact hget
  · subst hrest
    obtain ⟨hchar, hne, -⟩ := h.char_cons
    rw [Cursors.endToken, if_pos (by rw [hchar]; exact hne)]
    exact Ahead.emit (p := [b]) h 0 (by simp)

/-- Blanks in front do not matter. -/
theorem refTokens_blank {b : UInt8} (h : isWs b = true) (room : Nat) (s : List UInt8) :
    refTokens room (b :: s) = refTokens room s := by
  unfold refTokens
  rw [List.dropWhile_cons_of_pos h]

/-- Nothing is left but the NUL. -/
theorem parseTokens_end {maxArgv fuel : Nat} {argv : List Nat} {c : Cursors n} (h : c.char = 0) :
    parseTokens maxArgv fuel argv c = (c.buf, .ok argv) := by
  have hskip : ∀ fuel, skipBlanks fuel c = c := by
    intro fuel
    cases fuel with
    | zero => rfl
    | succ fuel => rw [skipBlanks, h, if_neg (by decide)]
  cases fuel with
  | zero => rfl
  | succ fuel =>
    rw [parseTokens, hskip, if_pos h]

/-- **The loop over the line** makes the tokens of the reference. -/
theorem parseTokens_ref {line : Buffer n} {rest : List UInt8} {c : Cursors n} {maxArgv fuel : Nat}
    {argv : List Nat} (h : Ahead line rest c) (hfuel : rest.length < fuel)
    (hstr : ∀ p ∈ argv, p + (c.buf.str p).length < c.dst) :
    argvOf (parseTokens maxArgv fuel argv c) =
      (refTokens (maxArgv - argv.length) rest).map (argv.map c.buf.str ++ ·) := by
  induction fuel generalizing rest c argv with
  | zero => exact absurd hfuel (Nat.not_lt_zero _)
  | succ fuel ih =>
    obtain ⟨hstart, hbuf, hdst⟩ := skipBlanks_ref h h.length_le
    have hblanks : (rest.dropWhile isWs).length ≤ rest.length := (List.dropWhile_suffix _).length_le
    rw [parseTokens, refTokens]
    generalize skipBlanks n c = start at hstart hbuf hdst
    cases hfront : rest.dropWhile isWs with
    | nil =>
      rw [hfront] at hstart
      rw [if_pos hstart.char_nil]
      show Except.ok (argv.map start.buf.str) = Except.ok (argv.map c.buf.str ++ [])
      rw [hbuf, List.append_nil]
    | cons b s =>
      rw [hfront] at hstart hblanks
      obtain ⟨hchar, hne, -⟩ := hstart.char_cons
      rw [if_neg (by rw [hchar]; exact hne)]
      cases hroom : maxArgv - argv.length with
      | zero =>
        rw [if_pos (Nat.sub_eq_zero_iff_le.mp hroom)]
        rfl
      | succ room =>
        rw [if_neg (by omega)]
        dsimp only
        rcases copyToken_cases hstart with ⟨href, token, hcopy⟩ |
          ⟨tok, rest', token, href, hcopy, hahead, hwrote, hnul, hblank, hlen⟩
        · rw [href, hcopy]
          rfl
        · rw [href, hcopy]
          -- the token is there, and so are those before it
          obtain ⟨hend, htok, hkeep, hnil, hcons⟩ :=
            endToken_ref hahead hwrote hnul (Nat.le_of_lt hstart.dst_lt)
          have hold : ∀ p ∈ argv, token.endToken.buf.str p = c.buf.str p := by
            intro p hp
            have hbefore : p + (start.buf.str p).length < start.dst := by
              rw [hbuf, hdst]
              exact hstr p hp
            rw [hkeep p hbefore, hbuf]
          have hmap : (argv ++ [start.dst]).map token.endToken.buf.str =
              argv.map c.buf.str ++ [tok] := by
            rw [List.map_append, List.map_singleton, htok, List.map_congr_left hold]
          dsimp only
          cases rest' with
          | nil =>
            rw [parseTokens_end (hnil rfl)]
            have hnone : refTokens room [] = .ok [] := by
              unfold refTokens
              rfl
            rw [hnone]
            exact congrArg Except.ok hmap
          | cons b' s' =>
            have hin : ∀ p ∈ argv ++ [start.dst], p + (token.endToken.buf.str p).length <
                token.endToken.dst := by
              intro p hp
              rcases List.mem_append.mp hp with hp | hp
              · have hlt := hstr p hp
                rw [hold p hp, hend, hdst]
                omega
              · obtain rfl := List.mem_singleton.mp hp
                rw [htok, hend]
                omega
            have hroom' : maxArgv - (argv ++ [start.dst]).length = room := by
              rw [List.length_append, List.length_singleton]
              omega
            rw [List.length_cons] at hlen
            rw [ih (hcons b' s' rfl) (by omega) hin, hmap, hroom', refTokens_blank (hblank b' rfl)]
            cases refTokens room s' with
            | error e => rfl
            | ok toks => exact congrArg Except.ok (List.append_assoc _ [tok] toks)

theorem ahead_start {line : Buffer n} (h : 0 ∈ line.bytes) :
    Ahead line (line.str 0) { buf := line, src := 0, dst := 0 } := by
  obtain ⟨tail, htail⟩ := CString.exists_ofBuffer h
  refine ⟨Nat.le_refl _, rfl, ⟨tail, ?_⟩, CString.ofBuffer_nul _, Nat.zero_add _⟩
  show line.bytes = CString.ofBuffer line.bytes ++ 0 :: tail
  exact htail

/-- **`cli_parse`** makes the tokens of the reference. -/
theorem cliParse_ref {line : Buffer n} {maxArgv : Nat} (hnul : 0 ∈ line.bytes)
    (hmax : 0 < maxArgv) :
    argvOf (cliParse line maxArgv) = refTokens maxArgv (line.str 0) := by
  have hstart := ahead_start hnul
  have hlt : (line.str 0).length < n := by
    obtain ⟨tail, htext⟩ := hstart.text
    have hlen := congrArg List.length htext
    rw [List.drop_zero, line.size, List.length_append, List.length_cons] at hlen
    omega
  have hparse := @parseTokens_ref n line (line.str 0) _ maxArgv n [] hstart hlt
    fun p hp => absurd hp List.not_mem_nil
  rw [cliParse, if_neg (Nat.ne_of_gt hmax), hparse]
  cases refTokens maxArgv (line.str 0) <;> rfl

/-! ## What is read and written, and when -/

/-- An access to the line: a byte read at an index, with what was there, or a write. -/
inductive Access where
  | read (i : Nat) (v : UInt8)
  | write (i : Nat)
deriving DecidableEq

/-- `*src`, read. -/
def Cursors.readChar (c : Cursors n) : Access := .read c.src c.char

/-- `src[1]`, read. -/
def Cursors.readNext (c : Cursors n) : Access := .read (c.src + 1) c.next

/-- The accesses of `skipBlanks`. -/
def skipBlanksLog : Nat → Cursors n → List Access
  | 0, _ => []
  | fuel + 1, c => c.readChar :: if isWs c.char then skipBlanksLog fuel (c.skip 1) else []

/-- Those of `copyToken`. `src[1]` is only looked at behind a backslash. -/
def copyTokenLog : Nat → Bool → Cursors n → List Access
  | 0, _, _ => []
  | fuel + 1, inQuote, c =>
    c.readChar ::
      if c.char = 0 then []
      else if inQuote then
        (if c.char = 92 then [c.readNext] else []) ++
          if c.char = 92 ∧ (c.next = 34 ∨ c.next = 92) then
            c.readNext :: .write c.dst :: copyTokenLog fuel true (c.emit c.next 2)
          else if c.char = 34 then copyTokenLog fuel false (c.skip 1)
          else .write c.dst :: copyTokenLog fuel true (c.emit c.char 1)
      else if isWs c.char then []
      else if c.char = 34 then copyTokenLog fuel true (c.skip 1)
      else .write c.dst :: copyTokenLog fuel false (c.emit c.char 1)

/-- Those of `parseTokens`: the tests of the two loops, and the end of each token. -/
def parseTokensLog (maxArgv : Nat) : Nat → List Nat → Cursors n → List Access
  | 0, _, _ => []
  | fuel + 1, argv, c =>
    let start := skipBlanks n c
    c.readChar :: skipBlanksLog n c ++ start.readChar ::
      if start.char = 0 then []
      else if argv.length ≥ maxArgv then []
      else
        copyTokenLog n false start ++
          match copyToken n false start with
          | (_, true) => []
          | (token, false) =>
            token.readChar :: .write token.dst :: parseTokensLog maxArgv fuel
              (argv ++ [start.dst]) token.endToken

/-- Those of `cli_parse`. -/
def cliParseLog (line : Buffer n) (maxArgv : Nat) : List Access :=
  if maxArgv = 0 then [] else parseTokensLog maxArgv n [] { buf := line, src := 0, dst := 0 }

/-- Accesses that are as they should be when the first `seen` bytes have been read: reads go on from
there or back, find what the line held and stay in it, and writes only go where something has
been read. -/
def Sound (line : Buffer n) (seen : Nat) : List Access → Prop
  | [] => True
  | .read i v :: log =>
    (v = line.get i ∧ i ≤ (line.str 0).length) ∧ i ≤ seen ∧ Sound line (max seen (i + 1)) log
  | .write i :: log => i < seen ∧ Sound line seen log

theorem Ahead.readChar {line : Buffer n} {rest : List UInt8} {c : Cursors n} {seen : Nat}
    {log : List Access} (h : Ahead line rest c) (hseen : c.src ≤ seen)
    (hlog : Sound line (max seen (c.src + 1)) log) :
    Sound line seen (c.readChar :: log) := by
  have hstop := h.stop
  exact ⟨⟨(h.get (Nat.zero_le _)).1, by omega⟩, hseen, hlog⟩

theorem Ahead.readNext {line : Buffer n} {a : UInt8} {s : List UInt8} {c : Cursors n} {seen : Nat}
    {log : List Access} (h : Ahead line (a :: s) c) (hseen : c.src + 1 ≤ seen)
    (hlog : ∀ seen', c.src + 2 ≤ seen' → Sound line seen' log) :
    Sound line seen (c.readNext :: log) := by
  have hstop := h.stop
  rw [List.length_cons] at hstop
  exact ⟨⟨(h.get (k := 1) (by simp)).1, by omega⟩, hseen, hlog _ (Nat.le_max_right _ _)⟩

theorem skipBlanks_sound {line : Buffer n} {rest : List UInt8} {c : Cursors n} {fuel seen : Nat}
    {more : List Access} (h : Ahead line rest c) (hseen : c.src ≤ seen)
    (hmore : ∀ seen', (skipBlanks fuel c).src ≤ seen' → Sound line seen' more) :
    Sound line seen (skipBlanksLog fuel c ++ more) := by
  induction fuel generalizing rest c seen with
  | zero => exact hmore seen hseen
  | succ fuel ih =>
    rw [skipBlanks] at hmore
    rw [skipBlanksLog, List.cons_append]
    refine h.readChar hseen ?_
    cases rest with
    | nil =>
      rw [h.char_nil, if_neg (by decide)] at hmore ⊢
      exact hmore _ (by omega)
    | cons a s =>
      rw [h.char_cons.1] at hmore ⊢
      cases hws : isWs a with
      | true =>
        rw [hws, if_pos rfl] at hmore
        rw [if_pos rfl]
        exact ih (Ahead.skip (p := [a]) h) (Nat.le_max_right _ _) hmore
      | false =>
        rw [hws, if_neg Bool.false_ne_true] at hmore
        rw [if_neg Bool.false_ne_true]
        exact hmore _ (by omega)

/-- Every character of a token is written where characters have been read. -/
theorem copyToken_sound {line : Buffer n} {rest : List UInt8} {c : Cursors n} {q : Bool}
    {fuel seen : Nat} {more : List Access} (h : Ahead line rest c) (hseen : c.src ≤ seen)
    (hmore : ∀ seen', (copyToken fuel q c).1.src ≤ seen' → Sound line seen' more) :
    Sound line seen (copyTokenLog fuel q c ++ more) := by
  induction fuel generalizing rest c q seen with
  | zero => exact hmore seen hseen
  | succ fuel ih =>
    have hbehind := h.behind
    rw [copyToken] at hmore
    rw [copyTokenLog, List.cons_append]
    refine h.readChar hseen ?_
    have hread : c.src + 1 ≤ max seen (c.src + 1) := Nat.le_max_right _ _
    generalize max seen (c.src + 1) = seen at hread
    cases rest with
    | nil =>
      rw [if_pos h.char_nil] at hmore ⊢
      exact hmore _ (show c.src ≤ _ by omega)
    | cons a s =>
      obtain ⟨hchar, hne, hnext⟩ := h.char_cons
      rw [hchar, if_neg hne] at hmore ⊢
      cases q with
      | true =>
        rw [if_pos rfl] at hmore ⊢
        have hrest : ∀ seen, c.src + 1 ≤ seen → Sound line seen
            ((if a = 92 ∧ (c.next = 34 ∨ c.next = 92) then
                c.readNext :: .write c.dst :: copyTokenLog fuel true (c.emit c.next 2)
              else if a = 34 then copyTokenLog fuel false (c.skip 1)
              else .write c.dst :: copyTokenLog fuel true (c.emit a 1)) ++ more) := by
          intro seen hread
          by_cases hesc : a = 92 ∧ (c.next = 34 ∨ c.next = 92)
          · rw [if_pos hesc] at hmore ⊢
            rw [hnext] at hesc
            obtain ⟨x, s', rfl, -⟩ := refToken_escape hesc
            refine h.readNext hread fun seen hread => ⟨by omega, ?_⟩
            exact ih (Ahead.emit (p := [a, x]) h c.next (by simp)) hread hmore
          · rw [if_neg hesc] at hmore ⊢
            by_cases hquote : a = 34
            · rw [if_pos hquote] at hmore ⊢
              exact ih (Ahead.skip (p := [a]) h) hread hmore
            · rw [if_neg hquote] at hmore ⊢
              exact ⟨by omega, ih (Ahead.emit (p := [a]) h a (by simp)) hread hmore⟩
        rw [List.append_assoc]
        by_cases hslash : a = 92
        · rw [if_pos hslash]
          exact h.readNext hread fun seen hread => hrest seen (by omega)
        · rw [if_neg hslash]
          exact hrest seen hread
      | false =>
        rw [if_neg Bool.false_ne_true] at hmore ⊢
        cases hws : isWs a with
        | true =>
          rw [hws, if_pos rfl] at hmore
          rw [if_pos rfl]
          exact hmore _ (show c.src ≤ _ by omega)
        | false =>
          rw [hws, if_neg Bool.false_ne_true] at hmore
          rw [if_neg Bool.false_ne_true]
          by_cases hquote : a = 34
          · rw [if_pos hquote] at hmore ⊢
            exact ih (Ahead.skip (p := [a]) h) hread hmore
          · rw [if_neg hquote] at hmore ⊢
            exact ⟨by omega, ih (Ahead.emit (p := [a]) h a (by simp)) hread hmore⟩

/-- Nothing is left but the NUL: it is read again, and that is all. -/
theorem parseTokens_end_sound {line : Buffer n} {maxArgv fuel seen : Nat}
    {argv : List Nat} {c : Cursors n} (hchar : c.char = line.get c.src ∧ c.char = 0)
    (hsrc : c.src ≤ (line.str 0).length) (hseen : c.src ≤ seen) :
    Sound line seen (parseTokensLog maxArgv fuel argv c) := by
  have hread : ∀ seen log, c.src ≤ seen → (∀ seen, c.src ≤ seen → Sound line seen log) →
      Sound line seen (c.readChar :: log) :=
    fun seen log hseen hlog =>
      ⟨⟨hchar.1, hsrc⟩, hseen, hlog _ (Nat.le_trans hseen (Nat.le_max_left _ _))⟩
  have hskip : ∀ fuel, skipBlanks fuel c = c ∧ ∀ seen log, c.src ≤ seen →
      (∀ seen, c.src ≤ seen → Sound line seen log) →
          Sound line seen (skipBlanksLog fuel c ++ log) := by
    intro fuel
    cases fuel with
    | zero => exact ⟨rfl, fun seen log hseen hlog => hlog seen hseen⟩
    | succ fuel =>
      rw [skipBlanks, skipBlanksLog, hchar.2, if_neg (by decide), if_neg (by decide)]
      exact ⟨rfl, fun seen log hseen hlog => hread seen log hseen hlog⟩
  cases fuel with
  | zero => trivial
  | succ fuel =>
    rw [parseTokensLog, (hskip n).1]
    refine hread _ _ hseen fun seen hseen => (hskip n).2 _ _ hseen fun seen hseen => hread _ _ hseen
      fun seen _ => ?_
    rw [if_pos hchar.2]
    trivial

theorem parseTokens_sound {line : Buffer n} {rest : List UInt8} {c : Cursors n}
    {maxArgv fuel seen : Nat} {argv : List Nat} (h : Ahead line rest c) (hseen : c.src ≤ seen) :
    Sound line seen (parseTokensLog maxArgv fuel argv c) := by
  induction fuel generalizing rest c argv seen with
  | zero => trivial
  | succ fuel ih =>
    rw [parseTokensLog, List.cons_append]
    refine h.readChar hseen (skipBlanks_sound h (by omega) fun seen hseen => ?_)
    have hstart := (skipBlanks_ref h h.length_le).1
    generalize skipBlanks n c = start at hstart hseen
    refine hstart.readChar hseen ?_
    have hread : start.src ≤ max seen (start.src + 1) := by omega
    generalize max seen (start.src + 1) = seen at hread
    split
    · trivial
    · split
      · trivial
      · refine copyToken_sound hstart hread fun seen hseen => ?_
        rcases copyToken_cases hstart with ⟨-, token, hcopy⟩ |
          ⟨tok, rest', token, -, hcopy, hahead, hwrote, hnul, -⟩
        · rw [hcopy]
          trivial
        · rw [hcopy] at hseen ⊢
          have hbehind := hahead.behind
          have hstop := hahead.stop
          refine hahead.readChar hseen ⟨by omega, ?_⟩
          obtain ⟨-, -, -, hnil, hcons⟩ :=
            endToken_ref hahead hwrote hnul (Nat.le_of_lt hstart.dst_lt)
          have hseen' : token.src + 1 ≤ max seen (token.src + 1) := Nat.le_max_right _ _
          generalize max seen (token.src + 1) = seen at hseen'
          cases rest' with
          | nil =>
            have hsrc : token.endToken.src = token.src := by
              rw [Cursors.endToken, if_neg (not_not.mpr hahead.char_nil)]
              rfl
            have hzero : line.get token.src = 0 := by
              have hget := hahead.get (Nat.le_refl 0)
              exact hget.1.symm.trans hget.2
            refine parseTokens_end_sound ⟨?_, hnil rfl⟩ ?_ ?_
            · rw [hnil rfl, hsrc, hzero]
            · rw [hsrc]
              omega
            · rw [hsrc]
              omega
          | cons b s =>
            have hsrc : token.endToken.src = token.src + 1 := by
              obtain ⟨hchar, hne, -⟩ := hahead.char_cons
              rw [Cursors.endToken, if_pos (by rw [hchar]; exact hne)]
              rfl
            exact ih (hcons b s rfl) (by rw [hsrc]; exact hseen')

theorem Sound.reads {line : Buffer n} {seen : Nat} {log : List Access} (h : Sound line seen log) :
    ∀ i v, .read i v ∈ log → v = line.get i ∧ i ≤ (line.str 0).length := by
  induction log generalizing seen with
  | nil => exact fun i v hmem => absurd hmem List.not_mem_nil
  | cons a log ih =>
    intro i v hmem
    cases a with
    | read j u =>
      rcases List.mem_cons.mp hmem with heq | hmem
      · obtain ⟨rfl, rfl⟩ := Access.read.inj heq
        exact h.1
      · exact ih h.2.2 i v hmem
    | write j =>
      rcases List.mem_cons.mp hmem with heq | hmem
      · exact absurd heq (by simp)
      · exact ih h.2 i v hmem

/-- `before` is what has been accessed so far. -/
theorem Sound.writes {line : Buffer n} {seen : Nat} {log : List Access} (h : Sound line seen log)
    {before : List Access} (hbefore : ∀ j < seen, ∃ v, .read j v ∈ before) :
    ∀ pre i post, log = pre ++ .write i :: post → ∃ v, .read i v ∈ before ++ pre := by
  induction log generalizing seen before with
  | nil => exact fun pre i post heq => absurd heq (by simp)
  | cons a log ih =>
    intro pre i post heq
    cases pre with
    | nil =>
      -- the write comes first
      obtain ⟨rfl, -⟩ := List.cons.inj heq
      rw [List.append_nil]
      exact hbefore i h.1
    | cons b pre =>
      obtain ⟨rfl, htail⟩ := List.cons.inj heq
      rw [List.append_cons]
      cases a with
      | write j =>
        refine ih h.2 (fun k hk => ?_) pre i post htail
        obtain ⟨v, hv⟩ := hbefore k hk
        exact ⟨v, List.mem_append_left _ hv⟩
      | read j u =>
        refine ih h.2.2 (fun k hk => ?_) pre i post htail
        by_cases hkj : k = j
        · subst hkj
          exact ⟨u, List.mem_append_right _ (List.mem_singleton_self _)⟩
        · obtain ⟨v, hv⟩ := hbefore k (by have := h.2.1; omega)
          exact ⟨v, List.mem_append_left _ hv⟩

/-- **The tokenizer is its reference**, although it works in place: it returns what the reference
does, its strings are the tokens, it finds every byte as it was, stays in the line, and
overwrites a byte only after it has read it. -/
theorem parse_matches {line : Buffer n} {maxArgv : Nat} (hnul : 0 ∈ line.bytes)
    (hmax : 0 < maxArgv) :
    argvOf (cliParse line maxArgv) = refTokens maxArgv (line.str 0) ∧
      (∀ i v, .read i v ∈ cliParseLog line maxArgv → v = line.get i ∧ i ≤ (line.str 0).length) ∧
      ∀ pre i post, cliParseLog line maxArgv = pre ++ .write i :: post →
        i ≤ (line.str 0).length ∧ ∃ v, .read i v ∈ pre := by
  have hstart := ahead_start hnul
  have hsound : Sound line 0 (cliParseLog line maxArgv) := by
    rw [cliParseLog, if_neg (Nat.ne_of_gt hmax)]
    exact parseTokens_sound hstart (Nat.le_refl 0)
  refine ⟨cliParse_ref hnul hmax, hsound.reads, fun pre i post hlog => ?_⟩
  have hnone : ∀ j < 0, ∃ v, Access.read j v ∈ [] := fun j hj => absurd hj (Nat.not_lt_zero j)
  obtain ⟨v, hv⟩ := hsound.writes hnone pre i post hlog
  refine ⟨(hsound.reads i v ?_).2, v, hv⟩
  rw [hlog]
  exact List.mem_append_left _ hv

/-- A quoted argument. -/
theorem parse_quoted :
    argvOf (cliParse (Buffer.ofString 16 (CString.ascii "echo \"a b\"")) 2) = .ok
        [CString.ascii "echo", CString.ascii "a b"] ∧
      ∀ pre i post, cliParseLog (Buffer.ofString 16 (CString.ascii "echo \"a b\"")) 2 =
        pre ++ .write i :: post → i ≤ 10 ∧ ∃ v, .read i v ∈ pre := by
  obtain ⟨hargv, -, hwrites⟩ :=
    @parse_matches 16 (Buffer.ofString 16 (CString.ascii "echo \"a b\"")) 2
    (by decide) (by decide)
  exact ⟨hargv.trans (by decide), hwrites⟩

end PicoBLE.Cli
