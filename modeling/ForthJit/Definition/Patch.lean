import ForthJit.Machine.Assembler
import ForthJit.Machine.Placeholder

/-!
# Pending patches

Branches to the exits of a word, calls to the word itself and loads of its literals have targets
that are known only when the definition ends.  Until then each is a placeholder with a pending
patch.
-/

namespace ForthJit

inductive PendingPatch where
  /-- Leave through the epilogue. -/
  | exit (index : Nat)
  /-- Leave through the error path if `reg` is nonzero. -/
  | error (index : Nat) (reg : Reg)
  /-- Call the word itself; an error check follows at `check`. -/
  | recursion (index check : Nat)
  /-- Load `value` from the literals of the word. -/
  | literal (index : Nat) (reg : Reg) (value : Cell)
  deriving DecidableEq

/-- Positions that are known once the word is laid out. -/
structure PatchTargets where
  entry : Nat
  epilogue : Nat
  errorPath : Nat
  errorReg : Reg
  /-- For each further register that holds an error, where it is moved to the error register. -/
  stubs : List (Reg × Nat)
  /-- First literal; literal `k` is at `literals + 2 * k`. -/
  literals : Nat
  /-- Whether a call of the word itself is followed by an error check. -/
  checkRecursion : Bool

/-- Number of instructions from one position to another: a difference in 64 bits, with a sign. -/
def distance (source target : Nat) : Int :=
  (BitVec.ofNat 64 target - BitVec.ofNat 64 source).toInt

namespace PendingPatch

def index : PendingPatch → Nat
  | exit index | error index _ | recursion index _ | literal index _ _ => index

def placeholder : PendingPatch → Placeholder
  | exit _ => .returnBranch
  | error _ _ => .errorBranch
  | recursion _ _ => .recursiveCall
  | literal _ _ _ => .largeImmediate

/-- The values to be loaded, in the order in which their literals are laid out. -/
def literals (patches : List PendingPatch) : List Cell :=
  patches.filterMap fun
    | literal _ _ value => some value
    | _ => none

/-- The registers other than `errorReg` that an error is expected in, each once. -/
def stubRegisters (errorReg : Reg) (patches : List PendingPatch) : List Reg :=
  patches.foldl (fun regs patch =>
    match patch with
    | error _ reg => if reg = errorReg || regs.contains reg then regs else regs ++ [reg]
    | _ => regs) []

/-- Where an error in `reg` leaves to. -/
def errorTarget (targets : PatchTargets) (reg : Reg) : Nat :=
  if reg = targets.errorReg then targets.errorPath
  else (targets.stubs.lookup reg).getD targets.errorPath

/-- The final instructions, in the order of the patches; `count` literals come before them. -/
def resolveFrom (targets : PatchTargets) : (count : Nat) → List PendingPatch →
    Except EncodeError (List (Nat × Instruction))
  | _, [] => .ok []
  | count, exit index :: rest => do
    let jump ← Asm.b (distance index targets.epilogue)
    return (index, jump) :: (← resolveFrom targets count rest)
  | count, error index reg :: rest => do
    let check ← Asm.cbnz reg (distance index (errorTarget targets reg))
    return (index, check) :: (← resolveFrom targets count rest)
  | count, recursion index check :: rest => do
    let call ← Asm.bl (distance index targets.entry)
    let checked ←
      if targets.checkRecursion then
        Asm.cbnz targets.errorReg (distance check targets.errorPath)
      else
        .ok .nop
    return (index, call) :: (check, checked) :: (← resolveFrom targets count rest)
  | count, literal index reg _ :: rest => do
    let load ← Asm.ldrLiteral reg (distance index (targets.literals + 2 * count))
    return (index, load) :: (← resolveFrom targets (count + 1) rest)

/-- The final instruction of every placeholder that has a pending patch.  No patch is pending
afterwards, whether or not every target is in reach. -/
def resolve (targets : PatchTargets) :
    EStateM EncodeError (List PendingPatch) (List (Nat × Instruction)) := fun patches =>
  match resolveFrom targets 0 patches with
  | .ok resolved => .ok resolved []
  | .error e => .error e []

end PendingPatch

end ForthJit
