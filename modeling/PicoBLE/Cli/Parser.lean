import PicoBLE.Lib.Buffer

/-!
# `cli/parser.c`

The tokenizer works in place. One cursor reads, another one writes the tokens
back into the same array with quotes and escapes taken out, each ended by a
NUL. What it returns are the indices at which the tokens start.
-/

namespace PicoBLE.Cli

/-- `CLI_MAX_ARGS`. -/
def cliMaxArgs : Nat := 16

/-- `CLI_PARSE_ERR_*`. -/
inductive ParseError where
  | unclosedQuote
  | tooManyArgs
deriving DecidableEq, Repr

/-- `is_ws`. -/
def isWs (c : UInt8) : Bool := c = 32 || c = 9

/-- The array and the two cursors. -/
structure Cursors (n : Nat) where
  buf : Buffer n
  src : Nat
  dst : Nat

variable {n : Nat}

/-- `*src`. -/
def Cursors.char (c : Cursors n) : UInt8 := c.buf.get c.src

/-- `src[1]`. -/
def Cursors.next (c : Cursors n) : UInt8 := c.buf.get (c.src + 1)

/-- `src += k`. -/
def Cursors.skip (c : Cursors n) (k : Nat) : Cursors n := { c with src := c.src + k }

/-- `*dst++ = x; src += k`. -/
def Cursors.emit (c : Cursors n) (x : UInt8) (k : Nat) : Cursors n :=
  { buf := c.buf.set c.dst x, src := c.src + k, dst := c.dst + 1 }

/-- `while (is_ws(*src)) src++`. Every step reads one more character, so the size of
the array is fuel enough here and below. -/
def skipBlanks : Nat → Cursors n → Cursors n
  | 0, c => c
  | fuel + 1, c => if isWs c.char then skipBlanks fuel (c.skip 1) else c

/-- The loop over one token, and whether it ended inside quotes. -/
def copyToken : Nat → Bool → Cursors n → Cursors n × Bool
  | 0, inQuote, c => (c, inQuote)
  | fuel + 1, inQuote, c =>
    if c.char = 0 then (c, inQuote)
    else if inQuote then
      -- only a quote and a backslash can be escaped
      if c.char = 92 ∧ (c.next = 34 ∨ c.next = 92) then copyToken fuel true (c.emit c.next 2)
      else if c.char = 34 then copyToken fuel false (c.skip 1)
      else copyToken fuel true (c.emit c.char 1)
    else if isWs c.char then (c, false)
    else if c.char = 34 then copyToken fuel true (c.skip 1)
    else copyToken fuel false (c.emit c.char 1)

/-- Hop over the blank that ended a token, then end the token: the NUL may go where the blank
was. -/
def Cursors.endToken (c : Cursors n) : Cursors n :=
  if c.char ≠ 0 then c.emit 0 1 else c.emit 0 0

/-- The loop over the line. -/
def parseTokens (maxArgv : Nat) : Nat → List Nat → Cursors n →
    Buffer n × Except ParseError (List Nat)
  | 0, argv, c => (c.buf, .ok argv)
  | fuel + 1, argv, c =>
    let start := skipBlanks n c
    if start.char = 0 then (start.buf, .ok argv)
    else if argv.length ≥ maxArgv then (start.buf, .error .tooManyArgs)
    else
      match copyToken n false start with
      | (token, true) => (token.buf, .error .unclosedQuote)
      | (token, false) => parseTokens maxArgv fuel (argv ++ [start.dst]) token.endToken

/-- `cli_parse`: the array afterwards, and where the tokens start in it. -/
def cliParse (line : Buffer n) (maxArgv : Nat) : Buffer n × Except ParseError (List Nat) :=
  if maxArgv = 0 then (line, .ok [])
  else parseTokens maxArgv n [] { buf := line, src := 0, dst := 0 }

/-- The strings that `argv` points to. -/
def argvOf (r : Buffer n × Except ParseError (List Nat)) : Except ParseError (List (List UInt8)) :=
  r.2.map fun argv => argv.map r.1.str

/-- There are no more tokens than asked for. -/
theorem parseTokens_length {maxArgv fuel : Nat} {argv out : List Nat} {c : Cursors n}
    (hle : argv.length ≤ maxArgv) (h : (parseTokens maxArgv fuel argv c).2 = .ok out) :
    out.length ≤ maxArgv := by
  induction fuel generalizing argv c with
  | zero =>
    obtain rfl := Except.ok.inj h
    exact hle
  | succ fuel ih =>
    rw [parseTokens] at h
    split at h
    · obtain rfl := Except.ok.inj h
      exact hle
    · split at h
      · exact absurd h (by simp)
      · next hroom =>
        split at h
        · exact absurd h (by simp)
        · refine ih ?_ h
          rw [List.length_append, List.length_singleton]
          omega

theorem argvOf_length {line : Buffer n} {maxArgv : Nat} {toks : List (List UInt8)}
    (h : argvOf (cliParse line maxArgv) = .ok toks) : toks.length ≤ maxArgv := by
  unfold argvOf at h
  cases hr : (cliParse line maxArgv).2 with
  | error e =>
    rw [hr] at h
    exact absurd h (by simp [Except.map])
  | ok out =>
    rw [hr] at h
    obtain rfl := Except.ok.inj h
    rw [List.length_map]
    unfold cliParse at hr
    split at hr
    · obtain rfl := Except.ok.inj hr
      exact Nat.zero_le _
    · exact parseTokens_length (Nat.zero_le _) hr

example :
    argvOf (cliParse (Buffer.ofString 32 (CString.ascii "  set \"a b\"\\c x\\\"\"")) cliMaxArgs)
    = .ok [CString.ascii "set", CString.ascii "a b\\c", CString.ascii "x\\"] := by decide

end PicoBLE.Cli
