import ForthJit.Machine.Assembler

/-!
# Local variables

A local is bound to the register that already holds its value; nothing is emitted for that.  When
the register is about to be overwritten, a write to the local's home is reserved at the current
position.  A read of a local that is in no register is reserved likewise, and confirms the writes
reserved before it.

Homes are chosen at the end of the definition, when every overwritten register is known: candidate
registers first, then slots of the stack frame.  Writes that no read confirmed become `nop`, so no
instruction ever moves.
-/

namespace ForthJit

inductive LocalState where
  | uninitialized
  /-- The value is only in the resident register. -/
  | unstable
  /-- The value is at the home of the local. -/
  | stable
  deriving DecidableEq

/-- A write reserved at `index`, of the value then in `source`. -/
structure LocalWrite where
  index : Nat
  source : Reg
  deriving DecidableEq

/-- A read reserved at `index`, into `target`. -/
structure LocalRead where
  index : Nat
  target : Reg
  deriving DecidableEq

structure Local where
  name : String
  state : LocalState := .uninitialized
  /-- The register that holds the value, if one does. -/
  resident : Option Reg := none
  /-- Writes that no read has confirmed yet. -/
  pending : List LocalWrite := []
  confirmed : List LocalWrite := []
  reads : List LocalRead := []
  deriving DecidableEq

/-- Where a local finally lives. -/
inductive Home where
  | register (r : Reg)
  /-- The cell `8 * n` bytes above the stack pointer. -/
  | slot (n : Nat)
  deriving DecidableEq

/-- How the value of a local gets into a register. -/
inductive Access where
  | inPlace
  | move (source : Reg)
  | load
  deriving DecidableEq

/-- The locals of one definition in the order of their declaration. -/
abbrev Locals := List Local

namespace Local

/-- The local's register, if it is one of `regs`. -/
def residentIn? (l : Local) (regs : RegSet) : Option Reg := l.resident.filter regs.contains

/-- The value now lives in `reg`. -/
def assign (l : Local) (reg : Reg) : Local := { l with state := .unstable, resident := some reg }

/-- A write of the value in `source` was reserved at `index`, and the register is given up. -/
def spill (l : Local) (index : Nat) (source : Reg) : Local :=
  { l with state := .stable, resident := none, pending := l.pending ++ [⟨index, source⟩] }

/-- A read into `target` was reserved at `index`. -/
def recordRead (l : Local) (index : Nat) (target : Reg) : Local :=
  { l with
    pending := []
    confirmed := l.confirmed ++ l.pending
    reads := l.reads ++ [⟨index, target⟩]
    resident := some target }

/-- How to get the value into `target`; `none` if there is no value yet. -/
def access? (l : Local) (target : Reg) : Option Access :=
  match l.state, l.resident with
  | .uninitialized, _ => none
  | _, some reg => some (if reg = target then .inPlace else .move reg)
  | _, none => some .load

/-- A local that is never read from its home needs none. -/
def needsHome (l : Local) : Bool := !l.confirmed.isEmpty || !l.reads.isEmpty

end Local

namespace Home

/-- The instruction that writes `source` to a home. -/
def write (home : Home) (source : Reg) : Except EncodeError Instruction :=
  match home with
  | register r => .ok (Asm.mov r source)
  | slot n => Asm.str source .sp (8 * n)

/-- The instruction that reads a home into `target`. -/
def read (home : Home) (target : Reg) : Except EncodeError Instruction :=
  match home with
  | register r => .ok (Asm.mov target r)
  | slot n => Asm.ldr target .sp (8 * n)

end Home

namespace Locals

def find? (ls : Locals) (name : String) : Option Nat := ls.findIdx? fun l => l.name == name

/-- The position of the local called `name`, which is added if there is none. -/
def declare (ls : Locals) (name : String) : Nat × Locals :=
  match find? ls name with
  | some id => (id, ls)
  | none => (ls.length, ls ++ [{ name }])

/-- Outcome of giving registers up: the locals, the number of writes reserved so far, and whether
there was room for all of them. -/
structure Spilled where
  locals : Locals
  writes : Nat
  complete : Bool

/-- Give up the registers in `regs`.  Each local whose value is only in one of them gets a write;
the write after `count` others goes to `position? count`.  When there is no such position, this
local and those after it stay as they are. -/
def clobber (regs : RegSet) (position? : Nat → Option Nat) : (count : Nat) → Locals → Spilled
  | count, [] => ⟨[], count, true⟩
  | count, l :: rest =>
    match l.residentIn? regs, l.state with
    | none, _ =>
      let s := clobber regs position? count rest
      { s with locals := l :: s.locals }
    | some reg, .unstable =>
      match position? count with
      | none => ⟨l :: rest, count, false⟩
      | some index =>
        let s := clobber regs position? (count + 1) rest
        { s with locals := l.spill index reg :: s.locals }
    | some _, _ =>
      let s := clobber regs position? count rest
      { s with locals := { l with resident := none } :: s.locals }

/-- Where the locals went and what becomes of the reserved reads and writes. -/
structure Resolution where
  patches : List (Nat × Instruction)
  /-- Slots in use. -/
  slots : Nat
  /-- Registers in use as homes. -/
  homes : RegSet
  homeOf : List (String × Option Home)

/-- The patches of one local: `nop` for each unconfirmed write, then the confirmed writes and the
reads. -/
def patchesOf (l : Local) : Option Home → Except EncodeError (List (Nat × Instruction))
  | none => .ok (l.pending.map fun w => (w.index, .nop))
  | some home => do
    let writes ← l.confirmed.mapM fun w => (home.write w.source).map (w.index, ·)
    let reads ← l.reads.mapM fun r => (home.read r.target).map (r.index, ·)
    return l.pending.map (fun w => (w.index, .nop)) ++ writes ++ reads

/-- The home of one local, and what is left for the others: a register of `free` if there is one,
else the slot `slots`. -/
def homeFor (free : List Reg) (slots : Nat) (l : Local) : Option Home × List Reg × Nat :=
  if l.needsHome then
    match free with
    | r :: free => (some (.register r), free, slots)
    | [] => (some (.slot slots), [], slots + 1)
  else
    (none, free, slots)

/-- Place the locals one after the other, in the registers of `free` and then in the slots from
`slots` on. -/
def resolveFrom : (free : List Reg) → (slots : Nat) → Locals → Except EncodeError Resolution
  | _, slots, [] => .ok ⟨[], slots, .empty, []⟩
  | free, slots, l :: rest => do
    let (home, free, used) := homeFor free slots l
    let patches ← patchesOf l home
    let rest ← resolveFrom free used rest
    let homes := match home with
      | some (.register r) => rest.homes.insert r
      | _ => rest.homes
    return ⟨patches ++ rest.patches, rest.slots, homes, (l.name, home) :: rest.homeOf⟩

/-- Choose homes outside `clobbered`. -/
def resolve (clobbered : RegSet) (ls : Locals) : Except EncodeError Resolution :=
  resolveFrom (RegSet.localCandidates.difference clobbered).toList 0 ls

end Locals

end ForthJit
