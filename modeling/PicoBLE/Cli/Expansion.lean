import Mathlib.Data.List.Forall2
import PicoBLE.Cli.Expand

/-!
# What the expansion computes

An argument is a sequence of parts: characters, and references to variables and
shell arguments. Its expansion is what the parts stand for, put together, and
what comes out of a reference is not looked at again.

`expand_argv` tests the room that is left in three places, for a character, a
value and the NUL at the end. Together they refuse exactly what does not fit:
the tests for a character and a value leave one byte for the NUL, and that of
the NUL catches an argument that begins behind the end of the array.
-/

namespace PicoBLE.Cli

open PicoBLE.System (VarTable varNameMax varsNameCharFirst varsNameCharRest varsGet)

/-! ## The grammar -/

/-- A part of an argument. -/
inductive TokenPart where
  | char (c : UInt8)
  /-- `$0` to `$9`, `$#` and `$?`. -/
  | special (c : UInt8)
  /-- `$NAME`. -/
  | var (name : List UInt8)
deriving DecidableEq

/-- A name, as long as it can be, or one special character; and what follows. -/
def plainName : List UInt8 → Option (TokenPart × List UInt8)
  | [] => none
  | c :: s =>
    if isShellSpecial c then some (.special c, s)
    else if varsNameCharFirst c then
      some (.var ((c :: s).takeWhile varsNameCharRest), (c :: s).dropWhile varsNameCharRest)
    else none

/-- The reference behind a `$`, and what follows. Behind an opening brace a closing one belongs to
it. -/
def referenceAt : List UInt8 → Option (TokenPart × List UInt8)
  | 123 :: s => (plainName s).map fun r => (r.1, if r.2.head? = some 125 then r.2.tail else r.2)
  | s => plainName s

/-- The parts of an argument. Every part takes at least one character. -/
def partsOf : Nat → List UInt8 → List TokenPart
  | 0, _ => []
  | _ + 1, [] => []
  | fuel + 1, c :: s =>
    if c = 36 then
      match referenceAt s with
      | none => .char 36 :: partsOf fuel s
      | some (part, rest) => part :: partsOf fuel rest
    else .char c :: partsOf fuel s

def tokenParts (tok : List UInt8) : List TokenPart := partsOf tok.length tok

example : tokenParts (CString.ascii "$1\x7d$\x7ba_1\x7db$$-$\x7bx$?")
    = [.special 49, .char 125, .var (CString.ascii "a_1"), .char 98, .char 36, .char 36, .char 45,
       .var (CString.ascii "x"), .special 63] := by decide

/-- What a part stands for: nothing, if it is a variable that is not set. -/
def TokenPart.text (vars : VarTable) (shell : ShellState) : TokenPart → List UInt8
  | .char c => [c]
  | .special c => (shellExpand c shell).getD []
  | .var name => (varsGet name vars).getD []

/-- What an argument stands for. -/
def expansionOf (vars : VarTable) (shell : ShellState) (tok : List UInt8) : List UInt8 :=
  (tokenParts tok).flatMap (TokenPart.text vars shell)

/-- A name that a variable can have, as far as its length goes. -/
def TokenPart.short : TokenPart → Bool
  | .var name => name.length ≤ varNameMax
  | _ => true

section

variable {vars : VarTable} {shell : ShellState}

theorem referenceAt_eq (s : List UInt8) :
    referenceAt s = (plainName (if s.head? = some 123 then s.tail else s)).map fun r =>
      (r.1, closeBrace (s.head? = some 123) r.2) := by
  by_cases h : s.head? = some 123
  · obtain ⟨c, s, rfl⟩ :=
      List.exists_cons_of_ne_nil (l := s) (by rintro rfl; exact absurd h (by simp))
    obtain rfl : c = 123 := by simpa using h
    rw [if_pos h, referenceAt]
    simp [closeBrace]
  · rw [if_neg h, referenceAt]
    · simp [closeBrace, h]
    · rintro s' rfl
      exact h rfl

/-- `expand_argv` looks for the same references. -/
theorem reference_eq (s : List UInt8) :
    reference vars shell s =
      match referenceAt s with
      | none => .bare
      | some (.special c, rest) => .value (shellExpand c shell) rest
      | some (.var name, rest) =>
        if name.length > varNameMax then .tooLong else .value (varsGet name vars) rest
      | some (.char _, _) => .bare := by
  rw [referenceAt_eq]
  unfold reference
  dsimp only
  generalize decide (s.head? = some 123) = braced
  generalize (if s.head? = some 123 then s.tail else s) = s
  cases s with
  | nil => rfl
  | cons c s =>
    rw [plainName]
    dsimp only
    by_cases hspecial : isShellSpecial c = true
    · rw [if_pos hspecial, if_pos hspecial]
      rfl
    · rw [if_neg hspecial, if_neg hspecial]
      by_cases hfirst : varsNameCharFirst c = true
      · rw [if_pos hfirst, if_pos hfirst]
        rfl
      · rw [if_neg hfirst, if_neg hfirst]
        rfl

/-- No reference is a plain character. -/
theorem referenceAt_char {s rest : List UInt8} {c : UInt8}
    (h : referenceAt s = some (.char c, rest)) : False := by
  rw [referenceAt_eq] at h
  obtain ⟨⟨part, rest'⟩, hplain, heq⟩ := Option.map_eq_some_iff.mp h
  obtain rfl : part = .char c := (Prod.mk.inj heq).1
  generalize (if s.head? = some 123 then s.tail else s) = s at hplain
  cases s with
  | nil => exact absurd hplain (by simp [plainName])
  | cons d s =>
    rw [plainName] at hplain
    split at hplain
    · exact absurd hplain (by simp)
    · split at hplain <;> exact absurd hplain (by simp)

/-! ## One argument -/

/-- What the parts stand for. -/
def textOfParts (vars : VarTable) (shell : ShellState) (parts : List TokenPart) : List UInt8 :=
  parts.flatMap (TokenPart.text vars shell)

/-- What the loop over an argument has to come to, from `off` on: to the end if no name is too long
and what the parts stand for fits with a NUL behind it, and to the end only with that text
written. -/
structure Expands (vars : VarTable) (shell : ShellState) (buf : ExpandBuf) (off : Nat)
    (parts : List TokenPart) (r : ExpandBuf × Nat × Bool) : Prop where
  fits : (∀ part ∈ parts, part.short = true) →
    off + (textOfParts vars shell parts).length < cliExpandBufSize → r.2.2 = true
  short : r.2.2 = true → ∀ part ∈ parts, part.short = true
  stop : r.2.2 = true → r.2.1 = off + (textOfParts vars shell parts).length
  le : r.2.2 = true → r.2.1 ≤ cliExpandBufSize
  bytes : r.2.2 = true → r.1.bytes.take r.2.1 = buf.bytes.take off ++ textOfParts vars shell parts

/-- One part more in front, written. -/
theorem Expands.cons {buf buf' : ExpandBuf} {off : Nat} {part : TokenPart} {parts : List TokenPart}
    {r : ExpandBuf × Nat × Bool} (hshort : part.short = true)
    (hbuf : buf'.bytes.take (off + (part.text vars shell).length) =
      buf.bytes.take off ++ part.text vars shell)
    (h : Expands vars shell buf' (off + (part.text vars shell).length) parts r) :
    Expands vars shell buf off (part :: parts) r := by
  have htext : textOfParts vars shell (part :: parts) =
      part.text vars shell ++ textOfParts vars shell parts :=
    List.flatMap_cons
  refine ⟨fun hall hfit => ?_, fun hdone => ?_, fun hdone => ?_, h.le, fun hdone => ?_⟩
  · rw [htext, List.length_append] at hfit
    exact h.fits (fun p hp => hall p (List.mem_cons_of_mem _ hp)) (by omega)
  · intro p hp
    rcases List.mem_cons.mp hp with rfl | hp
    · exact hshort
    · exact h.short hdone p hp
  · rw [h.stop hdone, htext, List.length_append, Nat.add_assoc]
  · rw [h.bytes hdone, hbuf, htext, List.append_assoc]

/-- A part that does not fit. -/
theorem expands_full {buf : ExpandBuf} {off : Nat} {part : TokenPart} {parts : List TokenPart}
    (hfull : part.short = true → cliExpandBufSize ≤ off + (part.text vars shell).length) :
    Expands vars shell buf off (part :: parts) (buf, off, false) := by
  have htext : textOfParts vars shell (part :: parts) =
      part.text vars shell ++ textOfParts vars shell parts :=
    List.flatMap_cons
  have hno : ¬ ((buf, off, false) : ExpandBuf × Nat × Bool).2.2 = true := Bool.false_ne_true
  refine ⟨fun hall hfit => ?_, fun h => absurd h hno, fun h => absurd h hno, fun h => absurd h hno,
    fun h => absurd h hno⟩
  have hlen := hfull (hall part List.mem_cons_self)
  rw [htext, List.length_append] at hfit
  omega

theorem set_take_succ {buf : ExpandBuf} {off : Nat} (h : off < cliExpandBufSize) (c : UInt8) :
    (buf.set off c).bytes.take (off + 1) = buf.bytes.take off ++ [c] := by
  have hlt : off < buf.bytes.length := by rw [buf.size]; exact h
  show (buf.bytes.set off c).take (off + 1) = _
  rw [List.take_add_one, List.take_set_of_le (Nat.le_refl _)]
  simp [hlt]

section Part

variable {part : TokenPart} {parts : List TokenPart} {go : ExpandBuf → Nat → ExpandBuf × Nat × Bool}

/-- Nothing is left. -/
theorem expands_nil {buf : ExpandBuf} {off : Nat} (hoff : off ≤ cliExpandBufSize) :
    Expands vars shell buf off [] (buf, off, true) :=
  ⟨fun _ _ => rfl, fun _ _ hp => absurd hp List.not_mem_nil, fun _ => rfl, fun _ => hoff,
    fun _ => (List.append_nil _).symm⟩

/-- A character that is kept, if there is room for it. -/
theorem expands_char {buf : ExpandBuf} {off : Nat} (c : UInt8)
    (hgo : ∀ {buf off}, off ≤ cliExpandBufSize → Expands vars shell buf off parts (go buf off)) :
    Expands vars shell buf off (.char c :: parts)
      (if off ≥ cliExpandBufSize - 1 then (buf, off, false) else go (buf.set off c) (off + 1)) := by
  split
  · next hfull =>
    refine expands_full fun _ => ?_
    show cliExpandBufSize ≤ off + 1
    omega
  · next hroom =>
    have hlt : off < cliExpandBufSize := by omega
    exact .cons rfl (set_take_succ hlt c) (hgo hlt)

/-- A reference that stands for nothing. -/
theorem expands_unset {buf : ExpandBuf} {off : Nat} (hoff : off ≤ cliExpandBufSize)
    (hshort : part.short = true) (hempty : part.text vars shell = [])
    (hgo : ∀ {buf off}, off ≤ cliExpandBufSize → Expands vars shell buf off parts (go buf off)) :
    Expands vars shell buf off (part :: parts) (go buf off) := by
  refine @Expands.cons _ _ buf buf _ _ _ _ hshort (by rw [hempty, List.append_nil]; rfl) ?_
  rw [hempty]
  exact hgo hoff

/-- A reference in whose place its value is written, if there is room for it. -/
theorem expands_value {buf : ExpandBuf} {off : Nat} {val : List UInt8} (hshort : part.short = true)
    (hval : part.text vars shell = val)
    (hgo : ∀ {buf off}, off ≤ cliExpandBufSize → Expands vars shell buf off parts (go buf off)) :
    Expands vars shell buf off (part :: parts)
      (if off + val.length ≥ cliExpandBufSize then (buf, off, false)
        else go (buf.write off val) (off + val.length)) := by
  split
  · next hfull =>
    refine expands_full fun _ => ?_
    rw [hval]
    exact hfull
  · next hroom =>
    have hfit : off + val.length ≤ cliExpandBufSize := by omega
    refine @Expands.cons _ _ buf (buf.write off val) _ _ _ _ hshort ?_ ?_
    · rw [hval]
      exact Buffer.write_take hfit
    · rw [hval]
      exact hgo hfit

end Part

/-- **The loop over one argument** expands its parts. -/
theorem expandToken_expands {fuel : Nat} {src : List UInt8} {buf : ExpandBuf} {off : Nat}
    (hoff : off ≤ cliExpandBufSize) :
    Expands vars shell buf off (partsOf fuel src) (expandToken vars shell fuel src buf off) := by
  induction fuel generalizing src buf off with
  | zero => exact expands_nil hoff
  | succ fuel ih =>
    cases src with
    | nil => exact expands_nil hoff
    | cons c src =>
      rw [expandToken, partsOf]
      split
      · rw [reference_eq]
        cases href : referenceAt src with
        | none => exact expands_char 36 ih
        | some r =>
          obtain ⟨part, rest⟩ := r
          cases part with
          | char d => exact (referenceAt_char href).elim
          | special d =>
            dsimp only
            cases hval : shellExpand d shell with
            | none => exact expands_unset hoff rfl (congrArg (Option.getD · []) hval) ih
            | some val => exact expands_value rfl (congrArg (Option.getD · []) hval) ih
          | var name =>
            dsimp only
            by_cases hlong : name.length > varNameMax
            · rw [if_pos hlong]
              refine expands_full fun hshort => ?_
              exact absurd (of_decide_eq_true hshort) (Nat.not_le.mpr hlong)
            · rw [if_neg hlong]
              have hshort : (TokenPart.var name).short = true :=
                decide_eq_true (Nat.le_of_not_lt hlong)
              cases hval : varsGet name vars with
              | none => exact expands_unset hoff hshort (congrArg (Option.getD · []) hval) ih
              | some val => exact expands_value hshort (congrArg (Option.getD · []) hval) ih
      · exact expands_char c ih

/-! ## All of them -/

/-- The bytes of an argument: what it stands for, and a NUL. -/
def ArgBytes (vars : VarTable) (shell : ShellState) (buf : ExpandBuf) (a : Arg) (tok : List UInt8) :
    Prop :=
  (buf.bytes.drop a.ptr).take ((expansionOf vars shell tok).length + 1) =
    expansionOf vars shell tok ++ [0]

/-- The bytes that the arguments take. -/
def expandedSize (vars : VarTable) (shell : ShellState) (toks : List (List UInt8)) : Nat :=
  (toks.map fun tok => (expansionOf vars shell tok).length + 1).sum

/-- No name in the arguments is too long. -/
def NamesShort (toks : List (List UInt8)) : Prop :=
  ∀ tok ∈ toks, ∀ part ∈ tokenParts tok, part.short = true

theorem namesShort_cons {tok : List UInt8} {toks : List (List UInt8)} :
    NamesShort (tok :: toks) ↔ (∀ part ∈ tokenParts tok, part.short = true) ∧ NamesShort toks :=
  List.forall_mem_cons

/-- **The loop over the arguments** comes to the end if and only if the names are short and
everything fits. -/
theorem expandFrom_isSome {toks : List (List UInt8)} {buf : ExpandBuf} {off : Nat}
    (hoff : off ≤ cliExpandBufSize) :
    (expandFrom vars shell toks buf off).2.2.isSome = true ↔
      NamesShort toks ∧ off + expandedSize vars shell toks ≤ cliExpandBufSize := by
  induction toks generalizing buf off with
  | nil => exact ⟨fun _ => ⟨fun _ hmem => absurd hmem List.not_mem_nil, hoff⟩, fun _ => rfl⟩
  | cons tok toks ih =>
    have htok : Expands vars shell buf off (tokenParts tok)
        (expandToken vars shell tok.length tok buf off) :=
      expandToken_expands hoff
    have hsize : expandedSize vars shell (tok :: toks) =
        (textOfParts vars shell (tokenParts tok)).length + 1 + expandedSize vars shell toks :=
          List.sum_cons
    rw [expandFrom, namesShort_cons, hsize]
    generalize expandToken vars shell tok.length tok buf off = r at htok
    obtain ⟨buf', stop, done⟩ := r
    cases done with
    | false =>
      refine ⟨fun h => absurd h (by simp), fun h => ?_⟩
      have hfit := h.2
      exact absurd (htok.fits h.1.1 (by omega)) Bool.false_ne_true
    | true =>
      have hstop : stop = off + (textOfParts vars shell (tokenParts tok)).length := htok.stop rfl
      have hshort := htok.short rfl
      dsimp only
      split
      · next hfull =>
        refine ⟨fun h => absurd h (by simp), fun h => ?_⟩
        have hfit := h.2
        omega
      · next hroom =>
        have hsum : stop + 1 + expandedSize vars shell toks =
            off + ((textOfParts vars shell (tokenParts tok)).length + 1 + expandedSize vars
                shell toks) := by
          omega
        rw [Option.isSome_map, ih (Nat.lt_of_not_le hroom), hsum]
        exact ⟨fun h => ⟨⟨hshort, h.1⟩, h.2⟩, fun h => ⟨h.1.2, h.2⟩⟩

/-- **Each argument is what its token stands for.** -/
theorem expandFrom_bytes {toks : List (List UInt8)} {buf : ExpandBuf} {off : Nat} {args : List Arg}
    (hoff : off ≤ cliExpandBufSize) (h : (expandFrom vars shell toks buf off).2.2 = some args) :
    List.Forall₂ (ArgBytes vars shell (expandFrom vars shell toks buf off).1) args toks := by
  induction toks generalizing buf off args with
  | nil =>
    obtain rfl := Option.some.inj h
    exact .nil
  | cons tok toks ih =>
    have htok : Expands vars shell buf off (tokenParts tok)
        (expandToken vars shell tok.length tok buf off) :=
      expandToken_expands hoff
    rw [expandFrom] at h ⊢
    generalize expandToken vars shell tok.length tok buf off = r at htok h
    obtain ⟨buf', stop, done⟩ := r
    cases done with
    | false => exact absurd h (by simp)
    | true =>
      dsimp only at h ⊢
      by_cases hfull : stop ≥ cliExpandBufSize
      · rw [if_pos hfull] at h
        exact absurd h (by simp)
      · rw [if_neg hfull] at h ⊢
        obtain ⟨args', hargs, rfl⟩ := Option.map_eq_some_iff.mp h
        refine .cons ?_ (ih (Nat.lt_of_not_le hfull) hargs)
        -- nothing that comes later is written in front of the NUL
        have hbelow := (expandFrom_writes vars shell toks (buf'.set stop 0) (stop + 1)).below
        have hstop : stop = off + (expansionOf vars shell tok).length := htok.stop rfl
        have hbytes : buf'.bytes.take stop = buf.bytes.take off ++ expansionOf vars shell tok :=
          htok.bytes rfl
        rw [set_take_succ (Nat.lt_of_not_le hfull), hbytes] at hbelow
        have hlen : (buf.bytes.take off).length = off := Buffer.take_length hoff
        show ((expandFrom vars shell toks (buf'.set stop 0) (stop + 1)).1.bytes.drop off).take
          ((expansionOf vars shell tok).length + 1) = _
        rw [List.take_drop, ← Nat.add_assoc, ← hstop, hbelow, List.append_assoc,
          List.drop_left' hlen]

/-- Read as a string it is that, as there is no NUL in a string. -/
theorem ArgBytes.str {buf : ExpandBuf} {a : Arg} {tok : List UInt8}
    (h : ArgBytes vars shell buf a tok) (hnul : 0 ∉ expansionOf vars shell tok) :
    buf.str a.ptr = expansionOf vars shell tok := by
  have hsplit :=
    List.take_append_drop ((expansionOf vars shell tok).length + 1) (buf.bytes.drop a.ptr)
  rw [h, List.append_assoc] at hsplit
  rw [Buffer.str, ← hsplit]
  exact CString.ofBuffer_append hnul _

/-! ## Where it writes -/

/-- The writes of `expandToken`: where they begin, and how long they are. -/
def expandTokenLog (vars : VarTable) (shell : ShellState) : Nat → List UInt8 → Nat →
    List (Nat × Nat)
  | 0, _, _ => []
  | _ + 1, [], _ => []
  | fuel + 1, c :: src, off =>
    if c = 36 then
      match reference vars shell src with
      | .bare =>
        if off ≥ cliExpandBufSize - 1 then []
        else (off, 1) :: expandTokenLog vars shell fuel src (off + 1)
      | .tooLong => []
      | .value none rest => expandTokenLog vars shell fuel rest off
      | .value (some val) rest =>
        if off + val.length ≥ cliExpandBufSize then []
        else (off, val.length) :: expandTokenLog vars shell fuel rest (off + val.length)
    else if off ≥ cliExpandBufSize - 1 then []
    else (off, 1) :: expandTokenLog vars shell fuel src (off + 1)

/-- The writes of `expandFrom`. -/
def expandFromLog (vars : VarTable) (shell : ShellState) :
    List (List UInt8) → ExpandBuf → Nat → List (Nat × Nat)
  | [], _, _ => []
  | tok :: toks, buf, off =>
    expandTokenLog vars shell tok.length tok off ++
      match expandToken vars shell tok.length tok buf off with
      | (_, _, false) => []
      | (buf, stop, true) =>
        if stop ≥ cliExpandBufSize then []
        else (stop, 1) :: expandFromLog vars shell toks (buf.set stop 0) (stop + 1)

/-- The write is inside the array. -/
def Inside (w : Nat × Nat) : Prop := w.1 + w.2 ≤ cliExpandBufSize

theorem expandToken_inside {fuel : Nat} {src : List UInt8} {off : Nat} :
    ∀ w ∈ expandTokenLog vars shell fuel src off, Inside w := by
  have hnil : ∀ w ∈ ([] : List (Nat × Nat)), Inside w := fun w hw => absurd hw List.not_mem_nil
  induction fuel generalizing src off with
  | zero => exact hnil
  | succ fuel ih =>
    cases src with
    | nil => exact hnil
    | cons c src =>
      have hchar : ∀ w ∈ if off ≥ cliExpandBufSize - 1 then []
          else (off, 1) :: expandTokenLog vars shell fuel src (off + 1), Inside w := by
        split
        · exact hnil
        · next hroom =>
          refine List.forall_mem_cons.mpr ⟨?_, ih⟩
          show off + 1 ≤ cliExpandBufSize
          omega
      rw [expandTokenLog]
      split
      · split
        · exact hchar
        · exact hnil
        · exact ih
        · split
          · exact hnil
          · next hroom => exact List.forall_mem_cons.mpr ⟨Nat.le_of_not_le hroom, ih⟩
      · exact hchar

theorem expandFrom_inside {toks : List (List UInt8)} {buf : ExpandBuf} {off : Nat} :
    ∀ w ∈ expandFromLog vars shell toks buf off, Inside w := by
  have hnil : ∀ w ∈ ([] : List (Nat × Nat)), Inside w := fun w hw => absurd hw List.not_mem_nil
  induction toks generalizing buf off with
  | nil => exact hnil
  | cons tok toks ih =>
    rw [expandFromLog]
    refine List.forall_mem_append.mpr ⟨expandToken_inside, ?_⟩
    split
    · exact hnil
    · split
      · exact hnil
      · next hroom => exact List.forall_mem_cons.mpr ⟨Nat.lt_of_not_le hroom, ih⟩

end

/-- **Expansion is exact and bounded.** It succeeds if and only if no name is too long and the
expanded arguments fit with their NULs; then there are as many as before, and each is what its
token stands for; and no write is outside the array. -/
theorem expand_exact (vars : VarTable) (shell : ShellState) (argv : List (List UInt8))
    (buf : ExpandBuf) :
    ((expandArgv vars shell argv buf).2.2.isSome = true ↔
        NamesShort argv ∧ expandedSize vars shell argv ≤ cliExpandBufSize) ∧
      (∀ args, (expandArgv vars shell argv buf).2.2 = some args → args.length = argv.length ∧
        List.Forall₂ (fun a tok => ArgBytes vars shell (expandArgv vars shell argv buf).1 a tok ∧
          (0 ∉ expansionOf vars shell tok →
            (expandArgv vars shell argv buf).1.str a.ptr = expansionOf vars shell tok)) args argv) ∧
      ∀ w ∈ expandFromLog vars shell argv buf 0, Inside w := by
  refine ⟨?_, fun args hargs => ?_, expandFrom_inside⟩
  · rw [expandArgv, expandFrom_isSome (Nat.zero_le _), Nat.zero_add]
  · have hbytes := expandFrom_bytes (Nat.zero_le _) hargs
    exact ⟨hbytes.length_eq, hbytes.imp fun a tok h => ⟨h, h.str⟩⟩

end PicoBLE.Cli
