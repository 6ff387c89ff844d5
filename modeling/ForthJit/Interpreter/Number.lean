import ForthJit.Machine.Word
import ForthJit.Text.Digit

/-!
# Numbers

A number is written in decimal, in hexadecimal after `0x` or `0X`, or as an ASCII character between
single quotes, each with an optional minus sign.  A magnitude has at most 64 bits and is read as a
cell, so large magnitudes are negative numbers.
-/

namespace ForthJit.Number

/-- The magnitude that one or more digits write, if it fits in a cell. -/
def magnitude? (base : Nat) (digits : List Char) : Option Cell :=
  ((Text.numeral? base digits).filter (· < UInt64.size)).map (BitVec.ofNat 64)

/-- A plus sign may stand before hexadecimal digits. -/
def withoutPlus : List Char → List Char
  | '+' :: digits => digits
  | digits => digits

/-- The value of a number without its minus sign. -/
def unsigned? : List Char → Option Cell
  | '0' :: 'x' :: digits | '0' :: 'X' :: digits => magnitude? 16 (withoutPlus digits)
  | ['\'', c, '\''] => if c.toNat < 128 then some (BitVec.ofNat 64 c.toNat) else none
  | digits => magnitude? 10 digits

/-- The value of a number; a lone minus sign is none. -/
def ofChars? : List Char → Option Cell
  | ['-'] => none
  | '-' :: rest => (unsigned? rest).map fun value => -value
  | text => unsigned? text

/-- The value of `text` if it is a number. -/
def parse? (text : String) : Option Cell := ofChars? text.toList

end ForthJit.Number
