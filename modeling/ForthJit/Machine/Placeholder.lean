import ForthJit.Machine.Field
import ForthJit.Machine.Instruction

/-!
# Placeholders

An instruction that cannot be finished yet is emitted as a trap whose immediate is `0xF000` with a
tag in its low byte.  The tag says which kind of patch the trap stands for.
-/

namespace ForthJit

/-- What a trap stands in for. -/
inductive Placeholder where
  | returnBranch | errorBranch | recursiveCall | largeImmediate | localWrite | localRead
  | prologue | recursionCheck | controlBranch
  deriving DecidableEq

namespace Placeholder

def tag : Placeholder → Nat
  | returnBranch => 1
  | errorBranch => 2
  | recursiveCall => 3
  | largeImmediate => 4
  | localWrite => 5
  | localRead => 6
  | prologue => 7
  | recursionCheck => 8
  | controlBranch => 9

def name : Placeholder → String
  | returnBranch => "pending return branch"
  | errorBranch => "pending error branch"
  | recursiveCall => "pending recursive call"
  | largeImmediate => "pending literal load"
  | localWrite => "pending local write"
  | localRead => "pending local read"
  | prologue => "pending prologue"
  | recursionCheck => "pending recursion error check"
  | controlBranch => "pending control-flow branch"

def all : List Placeholder :=
  [returnBranch, errorBranch, recursiveCall, largeImmediate, localWrite, localRead, prologue,
    recursionCheck, controlBranch]

def instruction (p : Placeholder) : Instruction := .trap (0xF000#16 ||| BitVec.ofNat 16 p.tag)

def word (p : Placeholder) : InstrWord := p.instruction.encode

/-- The tag of any trap with an immediate in `0xF000` to `0xF0FF`, whether or not a placeholder
has that tag. -/
def tagOf? (w : InstrWord) : Option Nat :=
  if w &&& 0xFFE0001F#32 = 0xD4200000#32 ∧ Field.extract w 13 8 = 0xF0 then
    some (Field.extract w 5 8)
  else
    none

/-- The placeholder that `w` is, if it is one. -/
def ofWord? (w : InstrWord) : Option Placeholder :=
  (tagOf? w).bind fun t => all.find? fun p => p.tag == t

end Placeholder

end ForthJit
