/-!
# Page protections and memory errors
-/

namespace ForthJit

/-- What a page allows.  No protection allows both writing and execution. -/
inductive Protection where
  | none | readOnly | readWrite | readExecute
  deriving DecidableEq

namespace Protection

/-- The bits of a protection: 1 to read, 2 to write, 4 to execute. -/
def flags : Protection → Nat
  | none => 0
  | readOnly => 1
  | readWrite => 3
  | readExecute => 5

def name : Protection → String
  | none => "PROT_NONE"
  | readOnly => "PROT_READ"
  | readWrite => "PROT_READ|PROT_WRITE"
  | readExecute => "PROT_READ|PROT_EXEC"

def all : List Protection := [none, readOnly, readWrite, readExecute]

def ofName? (s : String) : Option Protection := all.find? fun p => p.name == s

end Protection

/-- The parts of a code heap that can run out. -/
inductive HeapPart where
  | code | constants | data | addressTable
  deriving DecidableEq

namespace HeapPart

def name : HeapPart → String
  | code => "code"
  | constants => "constants"
  | data => "data"
  | addressTable => "address table"

end HeapPart

/-- Why an operation on code memory failed. -/
inductive MemoryError where
  /-- The system gave no mapping of this length. -/
  | map (length : Nat)
  /-- The system refused to change the protection of these pages. -/
  | protect (protection : Protection) (address length : Nat)
  | exhausted (part : HeapPart) (requested available : Nat)
  /-- A published instruction is never changed. -/
  | publishedPatch (index : Nat)
  | outOfBounds (index length : Nat)
  /-- A length or a position is no machine word: where that is checked, the program stops. -/
  | overflow
  deriving DecidableEq

end ForthJit
