import ForthJit.Text.CodePoint

/-!
# Blank characters and lines
-/

namespace ForthJit.Text

/-- The code points with the Unicode property `White_Space`. -/
def blankRanges : Ranges :=
  [(0x09, 5), (0x20, 1), (0x85, 1), (0xA0, 1), (0x1680, 1), (0x2000, 11), (0x2028, 2), (0x202F, 1),
    (0x205F, 1), (0x3000, 1)]

def isBlank (c : Char) : Bool := inRanges c.toNat blankRanges

/-- The lines of a text.  A line ends at a line feed, and a carriage return right before that is not
part of it; nothing follows the last line feed of a text that ends with one. -/
def lines : List Char → List (List Char)
  | [] => []
  | '\r' :: '\n' :: rest => [] :: lines rest
  | '\n' :: rest => [] :: lines rest
  | c :: rest =>
    match lines rest with
    | [] => [[c]]
    | line :: later => (c :: line) :: later

end ForthJit.Text
