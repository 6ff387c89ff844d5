import ForthJit.Memory.Mapping

/-!
# Data stack

The memory that values are kept in when they are not passed in registers.
-/

namespace ForthJit

/-- A stack of cells between two guard pages. -/
structure DataStack where
  memory : Mapping
  /-- Usable cells: the requested number rounded up to whole pages. -/
  cells : Nat

namespace DataStack

def create (host : Host) (cells : Nat) : Except MemoryError DataStack := do
  let guard := host.platform.pageSize
  let bytes := host.platform.pageAlign (max cells 1 * 8)
  let memory ← Mapping.create host (guard + bytes + guard)
  match Mapping.protect ⟨guard, guard + bytes⟩ .readWrite memory with
  | .error e _ => .error e
  | .ok _ memory => .ok { memory, cells := bytes / 8 }

end DataStack

end ForthJit
