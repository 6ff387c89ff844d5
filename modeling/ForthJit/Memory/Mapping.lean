import ForthJit.Memory.Error
import ForthJit.Memory.Host
import ForthJit.Text.Hex

/-!
# Mappings

A mapping is a run of pages from the system, inaccessible at first.  The protections it has been
given are kept as a log, newest first: `Mapping.protectionAt` is the protection of a page and
`Mapping.transitions` the number of changes.
-/

namespace ForthJit

namespace MemoryError

def message : MemoryError → String
  | map length => s!"mmap of {length} bytes failed: {Host.reason}"
  | protect protection address length =>
    s!"mprotect({protection.name}) on {length} bytes at {Hex.marked address} failed: {Host.reason}"
  | exhausted part requested available =>
    s!"{part.name} region exhausted: requested {requested} more bytes, {available} available"
  | publishedPatch index =>
    s!"instruction {index} is already published and cannot be patched"
  | outOfBounds index length =>
    s!"instruction index {index} out of bounds (length {length})"
  | overflow => "attempt to add with overflow"

end MemoryError

/-- Byte offsets from `start` up to but not including `stop`. -/
structure Span where
  start : Nat
  stop : Nat
  deriving DecidableEq

namespace Span

def length (s : Span) : Nat := s.stop - s.start

def contains (s : Span) (offset : Nat) : Bool := s.start ≤ offset && offset < s.stop

def isEmpty (s : Span) : Bool := s.stop ≤ s.start

end Span

structure Mapping where
  /-- Where the mapping is from. -/
  platform : Platform
  base : Nat
  length : Nat
  /-- The pages of each protection change and what they became, newest first. -/
  changes : List (Span × Protection)
  /-- The system as the last call left it. -/
  host : Host

namespace Mapping

/-- A mapping of at least `length` bytes. -/
def create (host : Host) (length : Nat) : Except MemoryError Mapping :=
  let length := host.platform.pageAlign (max length 1)
  if length < 0x10000000000000000 then
    match host.platform.place? host.mapped length with
    | some base =>
      .ok { platform := host.platform, base, length, changes := [],
            host := { host with mapped := host.mapped + 1 } }
    | none => .error (.map length)
  else
    .error .overflow

def contains (m : Mapping) (address : Nat) : Bool :=
  m.base ≤ address && address < m.base + m.length

/-- Number of protection changes so far. -/
def transitions (m : Mapping) : Nat := m.changes.length

/-- The protection of the byte at `offset`. -/
def protectionAt (m : Mapping) (offset : Nat) : Protection :=
  match m.changes.find? fun change => change.1.contains offset with
  | some (_, protection) => protection
  | none => .none

/-- The whole pages of the mapping that `span` touches. -/
def pagesOf (m : Mapping) (span : Span) : Span :=
  if span.isEmpty then
    ⟨0, 0⟩
  else
    let page := m.platform.pageSize
    ⟨span.start / page * page, min (m.platform.pageAlign span.stop) m.length⟩

/-- Give the pages that `span` touches a new protection.  A span without pages changes nothing and
does not reach the system. -/
def protect (span : Span) (protection : Protection) : EStateM MemoryError Mapping Unit := fun m =>
  let pages := m.pagesOf span
  if pages.isEmpty then
    .ok () m
  else
    match m.host.decideChange with
    | (true, host) => .ok () { m with changes := (pages, protection) :: m.changes, host }
    | (false, host) =>
      .error (.protect protection (m.base + pages.start) pages.length) { m with host }

/-- Give each part its protection, up to the first refusal. -/
def protectAll : (parts : List (Span × Protection)) → EStateM MemoryError Mapping Unit
  | [] => pure ()
  | (span, protection) :: parts => do
    protect span protection
    protectAll parts

end Mapping

end ForthJit
