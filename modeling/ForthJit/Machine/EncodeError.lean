/-!
# Operand errors

An instruction cannot be built when an operand does not fit its field.
-/

namespace ForthJit

/-- Why an instruction has no encoding. -/
inductive EncodeError where
  /-- `value` is outside the range of the `width`-bit field. -/
  | outOfRange (field : String) (value : Int) (width : Nat) (signed : Bool)
  /-- There is no register with this number. -/
  | invalidRegister (index : Nat)
  /-- The byte offset is not a multiple of the access size. -/
  | misaligned (field : String) (offset scale : Int)
  deriving DecidableEq

namespace EncodeError

def message : EncodeError → String
  | outOfRange field value width signed =>
    let sort := if signed then "signed" else "unsigned"
    s!"{field}: immediate {value} does not fit in {width} {sort} bits"
  | invalidRegister index => s!"invalid register index {index} (expected 0..=31)"
  | misaligned field offset scale => s!"{field}: offset {offset} is not a multiple of {scale}"

end EncodeError

end ForthJit
