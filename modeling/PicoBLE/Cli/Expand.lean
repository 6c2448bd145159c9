import PicoBLE.Cli.ShellState
import PicoBLE.Lib.Buffer
import PicoBLE.System.Vars

/-!
# Variable expansion, of `cli/cli.c`

`expand_argv` writes the arguments of a command, with variables replaced, one
after the other into `g_expand_buf`. There is one such array, and every
command line starts at its first byte again. The arguments that a handler gets
are pointers into it.
-/

namespace PicoBLE.Cli

open PicoBLE.System (VarTable varNameMax varsNameCharFirst varsNameCharRest varsGet)

/-- `CLI_EXPAND_BUF_SIZE`. -/
def cliExpandBufSize : Nat := 512

abbrev ExpandBuf := Buffer cliExpandBufSize

/-- An argument of a handler: where its string starts in `g_expand_buf`. The string that
`expand_argv` put there is kept beside it for the statements; no function reads it. -/
structure Arg where
  ptr : Nat
  text : List UInt8
deriving DecidableEq

/-- What follows a `$`. -/
inductive Reference where
  /-- Nothing that can be replaced. -/
  | bare
  /-- A name longer than any variable's. -/
  | tooLong
  /-- The value, if there is one, and the rest of the argument. -/
  | value (val : Option (List UInt8)) (rest : List UInt8)
deriving DecidableEq

/-- `if (braced && *s == '}') s++`. -/
def closeBrace (braced : Bool) (s : List UInt8) : List UInt8 :=
  if braced ∧ s.head? = some 125 then s.tail else s

/-- The part of `expand_argv` that looks at what stands behind a `$`. -/
def reference (vars : VarTable) (shell : ShellState) (s : List UInt8) : Reference :=
  let braced := s.head? = some 123
  match (if braced then s.tail else s) with
  | [] => .bare
  | c :: t =>
    if isShellSpecial c then .value (shellExpand c shell) (closeBrace braced t)
    else if varsNameCharFirst c then
      let name := (c :: t).takeWhile varsNameCharRest
      if name.length > varNameMax then .tooLong
      else .value (varsGet name vars) (closeBrace braced ((c :: t).dropWhile varsNameCharRest))
    else .bare

/-- The loop over one argument: the array, `off`, and whether it came to the end. -/
def expandToken (vars : VarTable) (shell : ShellState) :
    Nat → List UInt8 → ExpandBuf → Nat → ExpandBuf × Nat × Bool
  | 0, _, buf, off => (buf, off, true)
  | _ + 1, [], buf, off => (buf, off, true)
  | fuel + 1, c :: src, buf, off =>
    if c = 36 then
      match reference vars shell src with
      | .bare =>
        if off ≥ cliExpandBufSize - 1 then (buf, off, false)
        else expandToken vars shell fuel src (buf.set off 36) (off + 1)
      | .tooLong => (buf, off, false)
      | .value none rest => expandToken vars shell fuel rest buf off
      | .value (some val) rest =>
        if off + val.length ≥ cliExpandBufSize then (buf, off, false)
        else expandToken vars shell fuel rest (buf.write off val) (off + val.length)
    else if off ≥ cliExpandBufSize - 1 then (buf, off, false)
    else expandToken vars shell fuel src (buf.set off c) (off + 1)

/-- The loop over the arguments: the array, `off`, and the arguments, `none` for false. -/
def expandFrom (vars : VarTable) (shell : ShellState) :
    List (List UInt8) → ExpandBuf → Nat → ExpandBuf × Nat × Option (List Arg)
  | [], buf, off => (buf, off, some [])
  | tok :: toks, buf, off =>
    -- every turn of the inner loop takes a character
    match expandToken vars shell tok.length tok buf off with
    | (buf, stop, false) => (buf, stop, none)
    | (buf, stop, true) =>
      if stop ≥ cliExpandBufSize then (buf, stop, none)
      else
        let r := expandFrom vars shell toks (buf.set stop 0) (stop + 1)
        (r.1, r.2.1, r.2.2.map fun args => { ptr := off, text := (buf.set stop 0).str off } :: args)

/-- `expand_argv`: `g_expand_buf` afterwards, how much of it has been written, and the
arguments, `none` for false. -/
def expandArgv (vars : VarTable) (shell : ShellState) (argv : List (List UInt8)) (buf : ExpandBuf) :
    ExpandBuf × Nat × Option (List Arg) :=
  expandFrom vars shell argv buf 0

/-- As many arguments come out as go in. -/
theorem expandFrom_length {vars : VarTable} {shell : ShellState} {toks : List (List UInt8)}
    {buf : ExpandBuf} {off : Nat} {args : List Arg}
    (h : (expandFrom vars shell toks buf off).2.2 = some args) :
    args.length = toks.length := by
  induction toks generalizing buf off args with
  | nil =>
    obtain rfl := Option.some.inj h
    rfl
  | cons tok toks ih =>
    rw [expandFrom] at h
    split at h
    · exact absurd h (by simp)
    · split at h
      · exact absurd h (by simp)
      · obtain ⟨args', hargs, rfl⟩ := Option.map_eq_some_iff.mp h
        rw [List.length_cons, List.length_cons, ih hargs]

/-! ## Where it writes -/

section Writes

variable (vars : VarTable) (shell : ShellState)

/-- Everything is written from `off` on, and up to where `off` ends. -/
structure WritesFrom (off stop : Nat) (buf buf' : ExpandBuf) : Prop where
  le : off ≤ stop
  below : buf'.bytes.take off = buf.bytes.take off
  above : buf'.bytes.drop stop = buf.bytes.drop stop

theorem WritesFrom.refl (off : Nat) (buf : ExpandBuf) : WritesFrom off off buf buf :=
  ⟨Nat.le_refl _, rfl, rfl⟩

theorem WritesFrom.trans {off mid stop : Nat} {a b c : ExpandBuf} (h : WritesFrom off mid a b)
    (h' : WritesFrom mid stop b c) : WritesFrom off stop a c := by
  refine ⟨Nat.le_trans h.le h'.le, ?_, ?_⟩
  · have htake := congrArg (List.take off) h'.below
    rw [List.take_take, List.take_take, Nat.min_eq_left h.le] at htake
    rw [htake, h.below]
  · have hdrop := congrArg (List.drop (stop - mid)) h.above
    rw [List.drop_drop, List.drop_drop, Nat.add_sub_cancel' h'.le] at hdrop
    rw [h'.above, hdrop]

theorem writesFrom_set (buf : ExpandBuf) (off : Nat) (c : UInt8) :
    WritesFrom off (off + 1) buf (buf.set off c) :=
  ⟨Nat.le_succ off, Buffer.set_take c (Nat.le_refl off), Buffer.set_drop c (Nat.lt_succ_self off)⟩

theorem writesFrom_write {buf : ExpandBuf} {off : Nat} {bs : List UInt8}
    (h : off + bs.length ≤ cliExpandBufSize) :
    WritesFrom off (off + bs.length) buf (buf.write off bs) := by
  refine ⟨Nat.le_add_right _ _, ?_, Buffer.write_drop (Nat.le_refl _) h⟩
  rw [Buffer.write_bytes h, List.take_left' (Buffer.take_length (by omega))]

theorem expandToken_writes (fuel : Nat) (src : List UInt8) (buf : ExpandBuf) (off : Nat) :
    WritesFrom off (expandToken vars shell fuel src buf off).2.1 buf
      (expandToken vars shell fuel src buf off).1 := by
  induction fuel generalizing src buf off with
  | zero => exact WritesFrom.refl off buf
  | succ fuel ih =>
    cases src with
    | nil => exact WritesFrom.refl off buf
    | cons c src =>
      rw [expandToken]
      split
      · split
        · split
          · exact WritesFrom.refl off buf
          · exact (writesFrom_set buf off 36).trans (ih _ _ _)
        · exact WritesFrom.refl off buf
        · exact ih _ _ _
        · split
          · exact WritesFrom.refl off buf
          · next hfit => exact (writesFrom_write (Nat.le_of_not_le hfit)).trans (ih _ _ _)
      · split
        · exact WritesFrom.refl off buf
        · exact (writesFrom_set buf off c).trans (ih _ _ _)

theorem expandFrom_writes (toks : List (List UInt8)) (buf : ExpandBuf) (off : Nat) :
    WritesFrom off (expandFrom vars shell toks buf off).2.1 buf
      (expandFrom vars shell toks buf off).1 := by
  induction toks generalizing buf off with
  | nil => exact WritesFrom.refl off buf
  | cons tok toks ih =>
    have htok := expandToken_writes vars shell tok.length tok buf off
    rw [expandFrom]
    split
    · next heq => rw [heq] at htok; exact htok
    · next heq =>
      rw [heq] at htok
      split
      · exact htok
      · exact (htok.trans (writesFrom_set _ _ 0)).trans (ih _ _)

/-- A string that ends where nothing is written any more. -/
theorem WritesFrom.str_below {off stop p : Nat} {buf buf' : ExpandBuf}
    (h : WritesFrom (off + 1) stop buf buf') (hend : buf.get off = 0) (hp : p ≤ off) :
    buf'.str p = buf.str p := by
  have hchar : ∀ b : ExpandBuf, b.bytes.take (off + 1) = buf.bytes.take (off + 1) →
      (b.bytes.drop p).getD (off - p) 0 = 0 := by
    intro b hb
    have hget : b.get off = buf.get off := by
      have hd := congrArg (fun l => l.getD off 0) hb
      simpa [List.getD_eq_getElem?_getD, Buffer.get] using hd
    rw [List.getD_eq_getElem?_getD, List.getElem?_drop, Nat.add_sub_cancel' hp,
      ← List.getD_eq_getElem?_getD]
    exact hget.trans hend
  have htake : ∀ b : ExpandBuf,
      (b.bytes.drop p).take (off - p + 1) = (b.bytes.take (off + 1)).drop p := by
    intro b
    rw [List.take_drop]
    congr 2
    omega
  rw [Buffer.str, Buffer.str, ← Buffer.ofBuffer_take (hchar buf' h.below),
    ← Buffer.ofBuffer_take (hchar buf rfl), htake, htake, h.below]

/-- **The arguments are what was written**, the later ones notwithstanding. -/
theorem expandFrom_text {toks : List (List UInt8)} {buf : ExpandBuf} {off : Nat} {args : List Arg}
    (h : (expandFrom vars shell toks buf off).2.2 = some args) :
    ∀ a ∈ args, (expandFrom vars shell toks buf off).1.str a.ptr = a.text := by
  induction toks generalizing buf off args with
  | nil =>
    obtain rfl := Option.some.inj h
    intro a ha
    exact absurd ha (by simp)
  | cons tok toks ih =>
    have htok := expandToken_writes vars shell tok.length tok buf off
    rw [expandFrom] at h ⊢
    split at h
    · exact absurd h (by simp)
    · next buf' stop heq =>
      rw [heq] at htok
      split at h
      · exact absurd h (by simp)
      · next hstop =>
        have hwrites := expandFrom_writes vars shell toks (buf'.set stop 0) (stop + 1)
        obtain ⟨args', hargs, rfl⟩ := Option.map_eq_some_iff.mp h
        rw [if_neg hstop]
        dsimp only
        intro a ha
        rcases List.mem_cons.mp ha with rfl | ha
        · -- its own NUL is in front of everything that comes later
          refine hwrites.str_below ?_ htok.le
          have hlt : stop < buf'.bytes.length := by rw [buf'.size]; exact Nat.lt_of_not_le hstop
          simp [Buffer.get, Buffer.set, List.getD_eq_getElem?_getD, hlt]
        · exact ih hargs a ha

/-- A string behind everything that is written. -/
theorem WritesFrom.str_above {off stop p : Nat} {buf buf' : ExpandBuf}
    (h : WritesFrom off stop buf buf') (hp : stop ≤ p) : buf'.str p = buf.str p := by
  have hdrop := congrArg (List.drop (p - stop)) h.above
  rw [List.drop_drop, List.drop_drop, Nat.add_sub_cancel' hp] at hdrop
  rw [Buffer.str, Buffer.str, hdrop]

end Writes

end PicoBLE.Cli
