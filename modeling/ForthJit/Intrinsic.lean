import ForthJit.Machine.Word

/-!
# Intrinsics

Words that are functions of the host.  Each gives one value and an error code, zero for success;
compiled code finds them in `x0` and `x1`.
-/

namespace ForthJit

inductive Intrinsic where
  | print | emit | newline | abs | divide | remainder
  deriving DecidableEq

namespace Intrinsic

/-- All intrinsics, in the order in which they enter the dictionary. -/
def all : List Intrinsic := [print, emit, newline, abs, divide, remainder]

def name : Intrinsic → String
  | print => "."
  | emit => "emit"
  | newline => "cr"
  | abs => "abs"
  | divide => "/"
  | remainder => "mod"

def ofName? (name : String) : Option Intrinsic := all.find? (·.name == name)

def inputs : Intrinsic → Nat
  | newline => 0
  | print | emit | abs => 1
  | divide | remainder => 2

def outputs : Intrinsic → Nat
  | print | emit | newline => 0
  | abs | divide | remainder => 1

/-- Whether the error code can be nonzero. -/
def throws : Intrinsic → Bool
  | divide | remainder => true
  | print | emit | newline | abs => false

/-- The words that print need the interpreter. -/
def interpreterOnly : Intrinsic → Bool
  | print | emit | newline => true
  | abs | divide | remainder => false

/-- Address of the host function. -/
def function : Intrinsic → Nat
  | print => 0x555500011110
  | emit => 0x555500012220
  | newline => 0x54320
  | abs => 0x555500004440
  | divide => 0x555500035550
  | remainder => 0x5555ffff6660

/-- What a host function gives back, with the text it prints. -/
structure Outcome where
  value : Cell := 0
  error : Cell := 0
  output : String := ""
  deriving DecidableEq

/-- Error code of a division by zero. -/
def divisionByZero : Cell := 1

/-- The character with the code in the low half of a cell; what is no character is replaced. -/
def charOf (value : Cell) : Char :=
  let code := value.toNat % UInt32.size
  if code.isValidChar then Char.ofNat code else '\ufffd'

/-- Call the host function.  Arithmetic wraps, and a quotient is rounded toward zero. -/
def run (i : Intrinsic) (args : List Cell) : Outcome :=
  let x := args.getD 0 0
  let y := args.getD 1 0
  match i with
  | print => { output := toString x.toInt ++ " " }
  | emit => { output := String.singleton (charOf x) }
  | newline => { output := "\n" }
  | abs => { value := x.abs }
  | divide => if y = 0 then { error := divisionByZero } else { value := x.sdiv y }
  | remainder => if y = 0 then { error := divisionByZero } else { value := x.srem y }

end Intrinsic

end ForthJit
