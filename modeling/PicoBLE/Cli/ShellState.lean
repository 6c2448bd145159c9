import PicoBLE.Lib.CString

/-!
# `cli/shell_state.c`

The positional arguments of the running scripts and `$?`. The strings that
`shell_expand` returns are copied out before the next call of it, so the
scratch buffers they live in are not modelled.
-/

namespace PicoBLE.Cli

/-- `STACK_DEPTH`. -/
def stackDepth : Nat := 4
def shellMaxArgs : Nat := 10
def shellArgMaxLen : Nat := 63

/-- `g_stack` with `g_depth`, innermost frame first, and `g_status`. -/
structure ShellState where
  frames : List (List (List UInt8))
  status : Int
deriving DecidableEq

/-- `shell_push_args`, or `none` for false. -/
def shellPushArgs (argv : List (List UInt8)) (s : ShellState) : Option ShellState :=
  if s.frames.length ≥ stackDepth then none
  else some { s with frames := (argv.take shellMaxArgs).map (·.take shellArgMaxLen) :: s.frames }

/-- `shell_pop_args`. -/
def shellPopArgs (s : ShellState) : ShellState := { s with frames := s.frames.tail }

/-- `is_shell_special`, of `cli.c`. -/
def isShellSpecial (c : UInt8) : Bool := (48 ≤ c ∧ c ≤ 57) || c = 35 || c = 63

/-- `shell_expand`, on a name of one character. -/
def shellExpand (c : UInt8) (s : ShellState) : Option (List UInt8) :=
  let top := s.frames.headD []
  if 48 ≤ c ∧ c ≤ 57 then some (top.getD (c.toNat - 48) [])
  -- `$#` leaves out `$0`
  else if c = 35 then some (CString.itoa (top.length - 1 : Nat))
  else if c = 63 then some (CString.itoa s.status)
  else none

end PicoBLE.Cli
