import ForthJit.Machine.Word
import ForthJit.Memory.Mapping
import ForthJit.Memory.Store

/-!
# Code heap

Instructions are staged in a writable buffer and published by copying them, at the same positions,
to an executable buffer.  Beside the two buffers the mapping holds constants, mutable data and a
table of addresses, each between guard pages.

* `staged` holds every instruction emitted so far; the first `published` of them may be executed
  and are never patched.
* `constants`, `data` and `table` are allocated from the bottom up; `mark` and `rewind` take all
  cursors back together.

Operations run in `HeapM`, where a failed operation still says which state it left.
-/

namespace ForthJit

def wordBytes : Nat := 4

/-- Capacities: instructions, bytes of constants, bytes of data, address slots. -/
structure HeapLayout where
  codeCapacity : Nat := 1048576
  constantsCapacity : Nat := 65536
  dataCapacity : Nat := 65536
  addressTableSlots : Nat := 1024
  deriving DecidableEq

/-- A byte area allocated from the bottom up. -/
structure Region where
  /-- Distance from the start of the mapping. -/
  offset : Nat
  capacity : Nat
  used : Nat
  /-- What has been written, also beyond `used`. -/
  contents : Array UInt8
  deriving DecidableEq

namespace Region

def empty (offset capacity : Nat) : Region := { offset, capacity, used := 0, contents := #[] }

def span (r : Region) : Span := ⟨r.offset, r.offset + r.capacity⟩

/-- Reserve `length` aligned bytes; gives their position in the region. -/
def reserve (part : HeapPart) (length align : Nat) : EStateM MemoryError Region Nat := fun r =>
  let start := nextMultiple r.used (max align 1)
  if 0x10000000000000000 ≤ start + length then
    .error .overflow r
  else if start + length ≤ r.capacity then
    .ok start { r with used := start + length }
  else
    .error (.exhausted part length (r.capacity - r.used)) r

def write (r : Region) (position : Nat) (bytes : Array UInt8) : Region :=
  { r with contents := Store.write 0 r.contents position bytes }

def read (r : Region) (position count : Nat) : List UInt8 :=
  Store.readMany 0 r.contents position count

/-- Forget what was allocated from `used` on. -/
def rewind (r : Region) (used : Nat) : Region := { r with used := min r.used used }

end Region

/-- Allocation cursors. -/
structure HeapMark where
  code : Nat
  constants : Nat
  data : Nat
  slots : Nat
  deriving DecidableEq

/-- Published length before and after a sync. -/
structure SyncReport where
  start : Nat
  stop : Nat
  deriving DecidableEq

namespace SyncReport

def isNoop (r : SyncReport) : Bool := r.start == r.stop

end SyncReport

structure CodeHeap where
  memory : Mapping
  /-- Number of instructions each buffer has room for. -/
  capacity : Nat
  stagedOffset : Nat
  executableOffset : Nat
  staged : Array InstrWord
  /-- What has been copied to the executable buffer, also beyond `published`. -/
  executable : Array InstrWord
  published : Nat
  constants : Region
  data : Region
  table : Region

/-- Operations on a code heap.  An error comes with the heap it left. -/
abbrev HeapM := EStateM MemoryError CodeHeap

namespace CodeHeap

/-- Map a heap and give each of its parts its protection.  Every length and every offset goes
through `word`, which says what becomes of a number that is no machine word. -/
def build (word : Nat → Nat) (host : Host) (layout : HeapLayout) : Except MemoryError CodeHeap := do
  let page := host.platform.pageSize
  let pages (n : Nat) : Nat := word (host.platform.pageAlign n)
  let codeBytes := pages (word (max layout.codeCapacity 1 * wordBytes))
  let constantsBytes := pages (max layout.constantsCapacity 1)
  let dataBytes := pages (max layout.dataCapacity 1)
  let tableBytes := pages (word (max layout.addressTableSlots 1 * 8))
  -- The parts follow one another, each between two guard pages.
  let next (offset length : Nat) : Nat := word (offset + word (length + page))
  let stagedOffset := page
  let executableOffset := next stagedOffset codeBytes
  let constantsOffset := next executableOffset codeBytes
  let dataOffset := next constantsOffset constantsBytes
  let tableOffset := next dataOffset dataBytes
  let memory ← Mapping.create host (next tableOffset tableBytes)
  let span (offset length : Nat) : Span := ⟨offset, word (offset + length)⟩
  match Mapping.protectAll
      [(span stagedOffset codeBytes, .readWrite), (span executableOffset codeBytes, .readExecute),
        (span constantsOffset constantsBytes, .readOnly), (span dataOffset dataBytes, .readWrite),
        (span tableOffset tableBytes, .readWrite)] memory with
  | .error e _ => .error e
  | .ok _ memory =>
    .ok { memory, capacity := codeBytes / wordBytes, stagedOffset, executableOffset, staged := #[],
          executable := #[], published := 0, constants := .empty constantsOffset constantsBytes
          data := .empty dataOffset dataBytes, table := .empty tableOffset tableBytes }

/-- A new heap.  Nothing is cut off: a heap that machine words cannot measure is an overflow. -/
def create (host : Host) (layout : HeapLayout) : Except MemoryError CodeHeap := build id host layout

/-! ## Instructions -/

/-- Position of the next instruction. -/
def here (h : CodeHeap) : Nat := h.staged.size

/-- Where the instruction after `count` further ones will be, if there is room for it. -/
def position? (h : CodeHeap) (count : Nat) : Option Nat :=
  if h.here + count < h.capacity then some (h.here + count) else none

/-- Stage one instruction; gives its position. -/
def emit (w : InstrWord) : HeapM Nat := fun h =>
  if h.staged.size < h.capacity then
    .ok h.staged.size { h with staged := h.staged.push w }
  else
    .error (.exhausted .code wordBytes 0) h

/-- Stage instructions one after the other, as many as fit. -/
def emitAll : List InstrWord → HeapM Unit
  | [] => pure ()
  | w :: ws => do
    let _ ← emit w
    emitAll ws

/-- Stage a literal as two words, low half first; gives the position of the first. -/
def emitLiteral (value : Cell) : HeapM Nat := do
  let position ← emit (value.extractLsb' 0 32)
  let _ ← emit (value.extractLsb' 32 32)
  return position

/-- Replace a staged instruction that is not published. -/
def patch (index : Nat) (w : InstrWord) : HeapM Unit := fun h =>
  if index < h.published then
    .error (.publishedPatch index) h
  else if index < h.staged.size then
    .ok () { h with staged := h.staged.setIfInBounds index w }
  else
    .error (.outOfBounds index h.staged.size) h

def word? (h : CodeHeap) (index : Nat) : Option InstrWord := h.staged[index]?

/-- The staged words from `start` up to `stop`, as far as there are any. -/
def words (h : CodeHeap) (start stop : Nat) : Array InstrWord := h.staged.extract start stop

/-- The first `count` words of the executable buffer. -/
def executableWords (h : CodeHeap) (count : Nat) : List InstrWord :=
  Store.readMany 0 h.executable 0 count

/-- Where execution of instruction `index` starts. -/
def addressOf (h : CodeHeap) (index : Nat) : Nat :=
  h.memory.base + h.executableOffset + index * wordBytes

/-- The instruction at an address of the executable buffer. -/
def indexOf? (h : CodeHeap) (address : Nat) : Option Nat :=
  let start := h.addressOf 0
  if start ≤ address ∧ address < h.addressOf h.capacity ∧ (address - start) % wordBytes = 0 then
    some ((address - start) / wordBytes)
  else
    none

def contains (h : CodeHeap) (address : Nat) : Bool := h.memory.contains address

def transitions (h : CodeHeap) : Nat := h.memory.transitions

/-- Let the next protection changes be refused by this schedule. -/
def refuse (h : CodeHeap) (refusals : List Nat) : CodeHeap :=
  { h with memory := { h.memory with host := { h.memory.host with refusals } } }

/-- Run generated code: gives what the run leaves, if the machine can run it. -/
def execute : HeapM (Option Execution) := fun h =>
  match h.memory.host.executions with
  | [] => .ok none h
  | run :: executions =>
    .ok (some run) { h with memory := { h.memory with host := { h.memory.host with executions } } }

/-- Change the protection of part of the heap's mapping. -/
def protect (span : Span) (protection : Protection) : HeapM Unit := fun h =>
  match Mapping.protect span protection h.memory with
  | .ok _ memory => .ok () { h with memory }
  | .error e memory => .error e { h with memory }

/-- Copy staged instructions to the executable buffer, without publishing them. -/
def copyOut (h : CodeHeap) (start stop : Nat) : CodeHeap :=
  { h with executable := Store.write 0 h.executable start (h.staged.extract start stop) }

/-- Publish the instructions below `stop`.  The executable pages they lie on are writable while
they are copied. -/
def syncTo (stop : Nat) : HeapM SyncReport := do
  let h ← get
  let start := h.published
  let stop := min stop h.staged.size
  if stop ≤ start then
    return ⟨start, stop⟩
  let span : Span :=
    ⟨h.executableOffset + start * wordBytes, h.executableOffset + stop * wordBytes⟩
  protect span .readWrite
  modify fun h => h.copyOut start stop
  protect span .readExecute
  modify fun h => { h with published := stop }
  return ⟨start, stop⟩

/-- Publish every staged instruction. -/
def sync : HeapM SyncReport := do
  syncTo (← get).staged.size

/-- Publish the instructions below `stop` unless they already are. -/
def ensurePublished (stop : Nat) : HeapM Unit := do
  if (← get).published < stop then
    let _ ← syncTo stop

/-! ## Constants, data and addresses -/

/-- Copy `bytes` to the constants, which are writable only meanwhile; gives their address.  The
space stays reserved when a protection change is refused. -/
def addConstant (bytes : Array UInt8) : HeapM Nat := do
  let h ← get
  match Region.reserve .constants bytes.size 8 h.constants with
  | .error e _ => throw e
  | .ok position constants =>
    set { h with constants }
    protect constants.span .readWrite
    modify fun h => { h with constants := h.constants.write position bytes }
    protect constants.span .readOnly
    return h.memory.base + constants.offset + position

/-- Reserve zeroed data; gives its address. -/
def allocateData (length align : Nat) : HeapM Nat := do
  let h ← get
  match Region.reserve .data length align h.data with
  | .error e _ => throw e
  | .ok position data =>
    set { h with data := data.write position (Array.replicate length 0) }
    return h.memory.base + data.offset + position

/-- Reserve an address slot that holds `target`; gives the slot's address. -/
def bindSlot (target : Nat) : HeapM Nat := do
  let h ← get
  match Region.reserve .addressTable 8 8 h.table with
  | .error e _ => throw e
  | .ok position table =>
    set { h with table := table.write position (littleEndian 8 target).toArray }
    return h.memory.base + table.offset + position

/-- The address of slot `index`, if it is bound. -/
def slotAddress? (h : CodeHeap) (index : Nat) : Option Nat :=
  if index * 8 < h.table.used then
    some (h.memory.base + h.table.offset + index * 8)
  else
    none

/-- What slot `index` holds, if it is bound. -/
def slotValue? (h : CodeHeap) (index : Nat) : Option Nat :=
  if index * 8 < h.table.used then
    some (ofLittleEndian (h.table.read (index * 8) 8))
  else
    none

/-- `count` bytes of constants from `address` on. -/
def readConstants (h : CodeHeap) (address count : Nat) : List UInt8 :=
  h.constants.read (address - (h.memory.base + h.constants.offset)) count

/-- `count` bytes of data from `address` on. -/
def readData (h : CodeHeap) (address count : Nat) : List UInt8 :=
  h.data.read (address - (h.memory.base + h.data.offset)) count

/-- Store bytes in the data region. -/
def writeData (h : CodeHeap) (address : Nat) (bytes : Array UInt8) : CodeHeap :=
  { h with data := h.data.write (address - (h.memory.base + h.data.offset)) bytes }

/-! ## Rewinding -/

def mark (h : CodeHeap) : HeapMark :=
  { code := h.staged.size, constants := h.constants.used, data := h.data.used,
    slots := h.table.used / 8 }

/-- Forget everything allocated after `m`; a cursor that is already lower stays. -/
def rewind (h : CodeHeap) (m : HeapMark) : CodeHeap :=
  { h with
    staged := h.staged.shrink m.code
    published := min h.published m.code
    constants := h.constants.rewind m.constants
    data := h.data.rewind m.data
    table := h.table.rewind (m.slots * 8) }

end CodeHeap

end ForthJit
