/-!
# Ranges of code points
-/

namespace ForthJit.Text

/-- Ranges of code points, ascending and apart: the first of each and how many it holds. -/
abbrev Ranges := List (Nat × Nat)

/-- Whether one of the ranges holds `code`. -/
def inRanges (code : Nat) : Ranges → Bool
  | [] => false
  | (first, count) :: rest => first ≤ code && (code < first + count || inRanges code rest)

end ForthJit.Text
