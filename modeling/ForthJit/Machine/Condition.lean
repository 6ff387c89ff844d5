/-!
# Condition codes
-/

namespace ForthJit

/-- A condition on the flags. -/
inductive Cond where
  | eq | ne | hs | lo | mi | pl | vs | vc | hi | ls | ge | lt | gt | le | al
  deriving DecidableEq

namespace Cond

/-- The four-bit field of a condition. -/
def code : Cond → BitVec 4
  | eq => 0 | ne => 1 | hs => 2 | lo => 3 | mi => 4 | pl => 5 | vs => 6 | vc => 7
  | hi => 8 | ls => 9 | ge => 10 | lt => 11 | gt => 12 | le => 13 | al => 14

/-- The condition with the opposite outcome; `al` has none and stays itself. -/
def invert : Cond → Cond
  | eq => ne | ne => eq | hs => lo | lo => hs | mi => pl | pl => mi | vs => vc | vc => vs
  | hi => ls | ls => hi | ge => lt | lt => ge | gt => le | le => gt | al => al

def name : Cond → String
  | eq => "eq" | ne => "ne" | hs => "hs" | lo => "lo" | mi => "mi" | pl => "pl" | vs => "vs"
  | vc => "vc" | hi => "hi" | ls => "ls" | ge => "ge" | lt => "lt" | gt => "gt" | le => "le"
  | al => "al"

def all : List Cond := [eq, ne, hs, lo, mi, pl, vs, vc, hi, ls, ge, lt, gt, le, al]

def ofName? (s : String) : Option Cond := all.find? fun c => c.name == s

@[simp] theorem invert_invert (c : Cond) : c.invert.invert = c := by cases c <;> rfl

end Cond

end ForthJit
