/-!
# Contents of a memory area

The contents of an area are an array of what has been written so far; what lies beyond its end is
still in the initial state.
-/

namespace ForthJit.Store

variable {α : Type}

/-- Write `values` at `position`.  A gap before it is filled with `initial`. -/
def write (initial : α) (contents : Array α) (position : Nat) (values : Array α) : Array α :=
  let contents := contents ++ Array.replicate (position - contents.size) initial
  contents.extract 0 position ++ values ++
    contents.extract (position + values.size) contents.size

/-- The value at `position`. -/
def read (initial : α) (contents : Array α) (position : Nat) : α :=
  contents.getD position initial

/-- The `count` values from `position` on. -/
def readMany (initial : α) (contents : Array α) (position count : Nat) : List α :=
  (List.range count).map fun i => read initial contents (position + i)

end ForthJit.Store
