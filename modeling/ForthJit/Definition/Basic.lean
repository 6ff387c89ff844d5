import ForthJit.Definition.Local
import ForthJit.Definition.Patch
import ForthJit.Dictionary.Entry
import ForthJit.Memory.CodeHeap

/-!
# The open definition

Definitions do not nest, so at most one is open.  What belongs to it alone is kept here until it
ends: its locals, its pending patches, the registers it overwrites, and the number of values that
have been produced and not yet consumed.
-/

namespace ForthJit

/-- Instructions reserved for frame setup at the start of every compiled word. -/
def prologueSlots : Nat := 3

/-- What is declared about a word when its definition starts. -/
structure Signature where
  inputs : Nat
  outputs : Nat
  autoTry : Bool := true
  definitionOnly : Bool := false
  interpreterOnly : Bool := false
  /-- May take over a name without a warning. -/
  quiet : Bool := false
  deriving DecidableEq

namespace Signature

def flags (s : Signature) : EntryFlags :=
  { throws := false, autoTry := s.autoTry, definitionOnly := s.definitionOnly,
    interpreterOnly := s.interpreterOnly, quiet := s.quiet }

end Signature

/-- An open branch. -/
inductive ControlFrame where
  /-- `branch` skips the true part when `reg` is zero; `depth` values were left by the test. -/
  | ifPart (branch : Nat) (reg : Reg) (depth : Nat)
  /-- `skip` leaves the true part, which ends with `trueDepth` values unless it never ends. -/
  | elsePart (skip : Nat) (depth : Nat) (trueDepth : Option Nat)
  deriving DecidableEq

/-- How far the dictionary and the heap had grown. -/
structure Snapshot where
  entries : Nat
  heap : HeapMark
  deriving DecidableEq

structure Definition where
  entry : EntryId
  name : String
  signature : Signature
  /-- First reserved slot. -/
  start : Nat
  /-- State before the definition began. -/
  snapshot : Snapshot
  locals : Locals := []
  patches : List PendingPatch := []
  /-- Registers overwritten so far. -/
  clobbered : RegSet := .empty
  /-- Values produced and not yet consumed. -/
  depth : Nat := signature.inputs
  /-- Open branches, innermost first. -/
  control : List ControlFrame := []
  /-- Inside code that follows a `return`. -/
  unreachable : Bool := false
  leaf : Bool := true
  pcRelative : Bool := false
  hasBranches : Bool := false
  earlyReturn : Bool := false
  /-- Contains an error branch. -/
  raises : Bool := false
  deriving DecidableEq

namespace Definition

/-- First instruction of the body. -/
def body (w : Definition) : Nat := w.start + prologueSlots

end Definition

end ForthJit
