import PicoBLE.Lib.NorFlash

/-!
# The flash device

The image and, newest first, the erase and program operations it has gone
through. An operation run through `flash_safe_execute` either happens or
returns an error and leaves the flash alone; which of the two is an input of
the model, and every call that performs several operations takes one answer
for each of them.
-/

namespace PicoBLE.Ota

open NorFlash

/-- `FLASH_PAGE_SIZE`. -/
def flashPageSize : Nat := 256
/-- `FLASH_SECTOR_SIZE`. -/
def flashSectorSize : Nat := 4096

/-- A performed `flash_range_erase` or `flash_range_program`. -/
inductive FlashOp where
  | erase (offset len : Nat)
  | program (offset len : Nat)
deriving DecidableEq, Repr

structure Flash where
  image : Image
  log : List FlashOp

/-- `flash_range_erase`. -/
def flashRangeErase (offset len : Nat) (f : Flash) : Flash where
  image := NorFlash.erase offset len f.image
  log := .erase offset len :: f.log

/-- `flash_range_program`. -/
def flashRangeProgram (offset : Nat) (data : List UInt8) (f : Flash) : Flash where
  image := NorFlash.program offset data f.image
  log := .program offset data.length :: f.log

/-- `erase_range`, given whether `flash_safe_execute` returns `PICO_OK`. -/
def eraseRange (ok : Bool) (offset len : Nat) (f : Flash) : Flash × Bool :=
  if ok then (flashRangeErase offset len f, true) else (f, false)

/-- `program_page`, given whether `flash_safe_execute` returns `PICO_OK`. -/
def programPage (ok : Bool) (offset : Nat) (page : List UInt8) (f : Flash) : Flash × Bool :=
  if ok then (flashRangeProgram offset page f, true) else (f, false)

@[simp] theorem flashRangeErase_image (offset len : Nat) (f : Flash) :
    (flashRangeErase offset len f).image = NorFlash.erase offset len f.image := rfl

@[simp] theorem flashRangeProgram_image (offset : Nat) (data : List UInt8) (f : Flash) :
    (flashRangeProgram offset data f).image = NorFlash.program offset data f.image := rfl

@[simp] theorem eraseRange_true (offset len : Nat) (f : Flash) :
    eraseRange true offset len f = (flashRangeErase offset len f, true) := rfl

@[simp] theorem eraseRange_false (offset len : Nat) (f : Flash) :
    eraseRange false offset len f = (f, false) := rfl

@[simp] theorem programPage_true (offset : Nat) (page : List UInt8) (f : Flash) :
    programPage true offset page f = (flashRangeProgram offset page f, true) := rfl

@[simp] theorem programPage_false (offset : Nat) (page : List UInt8) (f : Flash) :
    programPage false offset page f = (f, false) := rfl

end PicoBLE.Ota
