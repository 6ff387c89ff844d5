import ForthJit.Machine.Placeholder
import ForthJit.Text.Hex

/-!
# Fault reports

What is said about a signal that ends the program: where it hit, whether that is generated code,
and, at a trap in generated code, which placeholder was never patched.
-/

namespace ForthJit

/-- The signals that faulty code causes. -/
inductive Signal where
  | segv | bus | ill | trap
  | other (number : Int)
  deriving DecidableEq

namespace Signal

def ofNumber : Int → Signal
  | 11 => segv
  | 7 => bus
  | 4 => ill
  | 5 => trap
  | number => other number

def name : Signal → String
  | segv => "SIGSEGV"
  | bus => "SIGBUS"
  | ill => "SIGILL"
  | trap => "SIGTRAP"
  | other _ => "signal"

end Signal

/-- Generated code, from `start` up to `stop`, and the instruction word at each address in it. -/
structure CodeRange where
  start : Nat
  stop : Nat
  wordAt : Nat → InstrWord

namespace CodeRange

/-- What is known about `address` as a position in the code. -/
def locate (code : CodeRange) (signal : Signal) (address : Nat) : String :=
  if code.start ≤ address ∧ address < code.stop then
    let unpatched := if signal = .trap ∧ address % wordAlignment = 0
      then Placeholder.tagOf? (code.wordAt address) else none
    let place := s!" (JIT code +{Hex.marked (address - code.start)})"
    match unpatched with
    | some tag => place ++ ": unpatched placeholder " ++ Hex.marked tag
    | none => place
  else
    ""
where
  /-- Instructions start at multiples of this. -/
  wordAlignment : Nat := 4

/-- The report of `signal` at `address`. -/
def report (code : CodeRange) (signal : Signal) (address : Nat) : String :=
  s!"kiln: fatal {signal.name} at {Hex.marked address}{code.locate signal address}\n"

end CodeRange

end ForthJit
