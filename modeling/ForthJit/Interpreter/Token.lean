import ForthJit.Text.Blank

/-!
# Tokens

Source text is split into runs of characters that are not blank.  A run that is a lone backslash
starts a comment, which goes to the end of its line.
-/

namespace ForthJit

structure Token where
  text : String
  /-- Counted from the first line of the source. -/
  line : Nat
  /-- Position of the first character, counted from one. -/
  column : Nat
  deriving DecidableEq

namespace Token

/-- The runs of characters that are not blank, each with the number of characters before it;
`position` characters come before the text itself. -/
def runs (position : Nat) : List Char → List (Nat × List Char)
  | [] => []
  | c :: rest =>
    if Text.isBlank c then
      runs (position + 1) rest
    else
      let run := c :: rest.takeWhile fun d => !Text.isBlank d
      (position, run) :: runs (position + run.length) (rest.dropWhile fun d => !Text.isBlank d)
  termination_by text => text.length
  decreasing_by
    · exact Nat.lt_succ_self _
    · exact Nat.lt_succ_of_le (List.dropWhile_sublist _).length_le

/-- The runs before the first one that is a lone backslash. -/
def withoutComment (words : List (Nat × List Char)) : List (Nat × List Char) :=
  words.takeWhile fun word => word.2 != ['\\']

/-- The tokens of line number `number`. -/
def ofLine (number : Nat) (line : List Char) : List Token :=
  (withoutComment (runs 0 line)).map fun (position, run) =>
    { text := String.ofList run, line := number, column := position + 1 }

/-- The tokens of `lines`, the first of which is line number `number`. -/
def ofLines (number : Nat) : List (List Char) → List Token
  | [] => []
  | line :: later => ofLine number line ++ ofLines (number + 1) later

/-- The tokens of `source`, whose first line has number `firstLine`. -/
def ofSource (source : String) (firstLine : Nat) : List Token :=
  ofLines firstLine (Text.lines source.toList)

end Token

end ForthJit
