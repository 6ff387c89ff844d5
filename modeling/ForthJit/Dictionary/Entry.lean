import ForthJit.Machine.Register

/-!
# Dictionary entries

An entry is a word that can be called: compiled here, built in, or a platform function reached
through an address slot.
-/

namespace ForthJit

/-- Position of an entry in the dictionary. -/
abbrev EntryId := Nat

namespace EntryId

def describe (id : EntryId) : String := s!"#{id}"

end EntryId

/-- Positions inside a compiled word, as instruction indices. -/
structure WordLayout where
  /-- First of the slots reserved for frame setup. -/
  start : Nat := 0
  /-- First instruction that is executed; unused slots lie before it. -/
  entry : Nat := 0
  body : Nat := 0
  /-- Normal exit: clears the error register and goes on to `errorPath`. -/
  epilogue : Nat := 0
  /-- Frame removal, common to both exits. -/
  errorPath : Nat := 0
  ret : Nat := 0
  /-- Error stubs and padding. -/
  data : Nat := 0
  /-- Literals, two words each. -/
  literals : Nat := 0
  stop : Nat := 0
  deriving DecidableEq

/-- What is known about the code of a compiled word. -/
structure CompiledWord where
  layout : WordLayout
  /-- The body may be copied to call sites. -/
  inlinable : Bool := false
  /-- Loads literals relative to its own position. -/
  pcRelative : Bool := false
  hasBranches : Bool := false
  /-- Returns before the end of the body. -/
  earlyReturn : Bool := false
  /-- Makes no calls. -/
  leaf : Bool := false
  /-- Bytes of stack reserved for locals. -/
  frameSize : Nat := 0
  deriving DecidableEq

inductive EntryKind where
  | compiled (code : CompiledWord)
  | intrinsic (function : Nat)
  | external (slot address : Nat)
  deriving DecidableEq

namespace EntryKind

def name : EntryKind → String
  | compiled _ => "native"
  | intrinsic _ => "intrinsic"
  | external _ _ => "external"

end EntryKind

structure EntryFlags where
  /-- May leave a nonzero error code. -/
  throws : Bool := false
  /-- Passes the errors of its callees on. -/
  autoTry : Bool := false
  /-- Usable only inside a definition. -/
  definitionOnly : Bool := false
  /-- Needs the interpreter. -/
  interpreterOnly : Bool := false
  /-- May take over a name without a warning. -/
  quiet : Bool := false
  deriving DecidableEq

structure Entry where
  name : String
  kind : EntryKind
  inputs : Nat
  outputs : Nat
  /-- Registers the word may overwrite. -/
  clobbers : RegSet := .empty
  flags : EntryFlags := { autoTry := true }
  /-- Entries this one calls, ascending. -/
  callees : List EntryId := []
  /-- Entries that call this one, ascending. -/
  callers : List EntryId := []
  /-- Has been entered by name. -/
  visible : Bool := false
  deriving DecidableEq

namespace Entry

def compiled? (e : Entry) : Option CompiledWord :=
  match e.kind with
  | .compiled code => some code
  | _ => none

end Entry

end ForthJit
