import ForthJit.Compiler.Transfer
import ForthJit.Compiler.Word

/-!
# Control flow

`if`, `else` and `then` are forward branches, patched as soon as their target is known.  Where paths
part or meet no local stays in a register.  `return`, `throw` and `recurse` have targets that are
known only at the end of the word.
-/

namespace ForthJit

namespace Emit

/-- Consume a flag; what follows runs if it is nonzero. -/
def ifPart : Emit Unit := do
  let reg ← consume "if"
  barrier
  let branch ← placeholder .controlBranch
  modifyWord fun w =>
    { w with control := .ifPart branch reg w.depth :: w.control, hasBranches := true }

/-- End the true part and start the false part. -/
def elsePart : Emit Unit := do
  match (← word).control with
  | .ifPart branch reg depth :: outer =>
    modifyWord fun w => { w with control := outer }
    barrier
    let w ← word
    let trueDepth := if w.unreachable then none else some w.depth
    let skip ← placeholder .controlBranch
    let jump ← assembled (Asm.cbz reg (distance branch (← here)))
    patch branch jump
    modifyWord fun w =>
      { w with control := .elsePart skip depth trueDepth :: w.control, depth, unreachable := false }
  | _ => throw (.control .elseAlone)

/-- Join two paths, of which at most one ends with each of the given depths. -/
def join (first second : Option Nat) : Emit Unit := do
  match first, second with
  | some a, some b =>
    if a ≠ b then
      throw (.control (.depthMismatch a b))
    modifyWord fun w => { w with depth := a, unreachable := false }
  | some depth, none | none, some depth =>
    modifyWord fun w => { w with depth, unreachable := false }
  | none, none => modifyWord fun w => { w with unreachable := true }

/-- Join the paths of the innermost branch.  Without a false part, the other path leaves what was
there at the test. -/
def thenPart : Emit Unit := do
  match (← word).control with
  | [] => throw (.control .thenAlone)
  | frame :: outer =>
    modifyWord fun w => { w with control := outer }
    barrier
    let target ← here
    let w ← word
    let endDepth := if w.unreachable then none else some w.depth
    match frame with
    | .ifPart branch reg depth =>
      patch branch (← assembled (Asm.cbz reg (distance branch target)))
      join endDepth (some depth)
    | .elsePart skip _ trueDepth =>
      patch skip (← assembled (Asm.b (distance skip target)))
      join trueDepth endDepth

/-- Leave the word with the pending values. -/
def exit : Emit Unit := do
  let w ← word
  unless w.unreachable || w.depth = w.signature.outputs do
    throw (.arity (.exit w.name w.signature.outputs w.depth))
  let index ← placeholder .returnBranch
  pushPatch (.exit index)
  modifyWord fun w => { w with earlyReturn := true, hasBranches := true, unreachable := true }

/-- Consume an error code and leave through the error path if it is nonzero. -/
def raise : Emit Unit := do
  let reg ← consume "throw"
  raiseIfNonzero reg

/-- Call the word that is being defined. -/
def recurse : Emit Unit := do
  let w ← word
  arity ((← convention).checkArity w.name w.depth w.signature.inputs)
  clobber .callerSaved
  let index ← placeholder .recursiveCall
  let check ← placeholder .recursionCheck
  pushPatch (.recursion index check)
  modifyWord fun v =>
    { v with leaf := false, depth := w.depth - w.signature.inputs + w.signature.outputs }

end Emit

namespace Compiler

def ifPart : CompileM Unit := emitting Emit.ifPart

def elsePart : CompileM Unit := emitting Emit.elsePart

def thenPart : CompileM Unit := emitting Emit.thenPart

def exit : CompileM Unit := emitting Emit.exit

def raise : CompileM Unit := emitting Emit.raise

/-- Call the word that is being defined, and record the call. -/
def recurse : CompileM Unit := do
  emitting Emit.recurse
  let word ← active
  modifyDictionary fun d => d.addCall word.entry word.entry

end Compiler

end ForthJit
