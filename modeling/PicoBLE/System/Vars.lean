import PicoBLE.Lib.CString

/-!
# `system/vars.c`

Thirty-two slots for shell variables. The arrays of a slot are kept as the
strings in them: what goes in is checked to be short enough first.
-/

namespace PicoBLE.System

def varMaxCount : Nat := 32
def varNameMax : Nat := 31
def varValueMax : Nat := 95

/-- `var_slot_t`. -/
structure VarSlot where
  name : List UInt8
  value : List UInt8
  used : Bool
deriving DecidableEq

/-- `g_slots`. -/
abbrev VarTable := Fin varMaxCount → VarSlot

/-- The table at start. -/
def VarTable.empty : VarTable := fun _ => { name := [], value := [], used := false }

/-- The slots in the order of the loops over them. -/
def varSlots : List (Fin varMaxCount) := List.finRange varMaxCount

/-- `vars_name_char_first`. -/
def varsNameCharFirst (c : UInt8) : Bool := (65 ≤ c ∧ c ≤ 90) ∨ (97 ≤ c ∧ c ≤ 122) ∨ c = 95

/-- `vars_name_char_rest`. -/
def varsNameCharRest (c : UInt8) : Bool := varsNameCharFirst c ∨ (48 ≤ c ∧ c ≤ 57)

/-- `valid_name`. -/
def validVarName : List UInt8 → Bool
  | [] => false
  | c :: cs =>
    varsNameCharFirst c && (c :: cs).all varsNameCharRest && (c :: cs).length ≤ varNameMax

/-- `find_slot`. -/
def findVar (name : List UInt8) (t : VarTable) : Option (Fin varMaxCount) :=
  varSlots.find? fun i => (t i).used && (t i).name = name

/-- `free_slot`. -/
def freeVar (t : VarTable) : Option (Fin varMaxCount) := varSlots.find? fun i => !(t i).used

/-- `vars_set`: the new table, or `none` for false. -/
def varsSet (name value : List UInt8) (t : VarTable) : Option VarTable :=
  if ¬ validVarName name then none
  else if value.length > varValueMax then none
  else
    match findVar name t with
    | some slot =>
      some fun i => if i = slot then { t i with value := value.take varValueMax } else t i
    | none =>
      match freeVar t with
      | none => none
      | some slot => some fun i =>
        if i = slot then
          { name := name.take varNameMax, value := value.take varValueMax, used := true }
        else t i

/-- `vars_unset`: the new table, or `none` for false. -/
def varsUnset (name : List UInt8) (t : VarTable) : Option VarTable :=
  (findVar name t).map fun slot i => if i = slot then { t i with used := false } else t i

/-- `vars_get`. -/
def varsGet (name : List UInt8) (t : VarTable) : Option (List UInt8) :=
  (findVar name t).map fun slot => (t slot).value

end PicoBLE.System
