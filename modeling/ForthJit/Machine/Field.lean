import ForthJit.Machine.EncodeError
import ForthJit.Machine.Word

/-!
# Operand fields

An operand is checked against the range of its field and becomes a bit vector of the field's
width; a signed operand is stored as the low bits of its two's complement, so that sign extension
gives it back.  `pack…` checks an operand and places it at a bit offset, `extract…` reads it again,
both by shifts and masks of whole words.
-/

namespace ForthJit.Field

/-- An unsigned operand.  Errors show the value as a signed 64-bit number. -/
def unsigned (field : String) (width : Nat) (value : Cell) : Except EncodeError (BitVec width) :=
  if value.toNat < 1 <<< width then
    .ok (BitVec.ofNat width value.toNat)
  else
    .error (.outOfRange field value.toInt width false)

/-- A signed operand, from `-2 ^ (width - 1)` up to but not including `2 ^ (width - 1)`. -/
def signed (field : String) (width : Nat) (value : Int) : Except EncodeError (BitVec width) :=
  let limit : Nat := 1 <<< (width - 1)
  if -(limit : Int) ≤ value ∧ value < limit then
    .ok (BitVec.ofInt width value)
  else
    .error (.outOfRange field value width true)

/-- A byte offset as a multiple of `scale`. -/
def scaled (field : String) (offset scale : Int) : Except EncodeError Int :=
  if offset.tmod scale = 0 then
    .ok (offset.tdiv scale)
  else
    .error (.misaligned field offset scale)

/-- The word that holds `v` at bit offset `shift` and zeros elsewhere. -/
def place {width : Nat} (v : BitVec width) (shift : Nat) : InstrWord :=
  v.setWidth 32 <<< shift

/-- An unsigned operand at bit offset `shift`: none of its bits is above the field. -/
def packUnsigned (field : String) (value : Cell) (width shift : Nat) :
    Except EncodeError InstrWord :=
  if width < 64 ∧ value >>> width ≠ 0#64 then
    .error (.outOfRange field value.toInt width false)
  else
    .ok (value.setWidth 32 <<< shift)

/-- A signed operand at bit offset `shift`: its low bits, the others masked off. -/
def packSigned (field : String) (value : Cell) (width shift : Nat) :
    Except EncodeError InstrWord :=
  let limit := 1#64 <<< (width - 1)
  if value.slt (-limit) ∨ (limit - 1#64).slt value then
    .error (.outOfRange field value.toInt width true)
  else
    -- A shift by the full width would leave no mask at all.
    let mask := if width = 32 then BitVec.allOnes 32 else 1#32 <<< width - 1#32
    .ok ((value.setWidth 32 &&& mask) <<< shift)

/-- The `width` bits of `w` at `shift`, at the low end of a word. -/
def bits (w : InstrWord) (shift width : Nat) : InstrWord :=
  w >>> shift &&& (1#64 <<< width - 1#64).setWidth 32

/-- The `width` bits of `w` at `shift`, as an unsigned number. -/
def extract (w : InstrWord) (shift width : Nat) : Nat := (bits w shift width).toNat

/-- The `width` bits of `w` at `shift`, sign extended. -/
def extractSigned (w : InstrWord) (shift width : Nat) : Int :=
  let sign := 1#64 <<< (width - 1)
  (((bits w shift width).setWidth 64 ^^^ sign) - sign).toInt

end ForthJit.Field
