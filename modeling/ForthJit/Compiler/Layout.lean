import ForthJit.Compiler.Convention
import ForthJit.Compiler.Draft
import ForthJit.Compiler.Frame

/-!
# Laying out a finished word

Once the body is complete every open decision can be taken: where the locals live, whether a frame
is needed, where the exits are.  A word then looks like this:

```text
start:     nop, or frame setup right-aligned in its slots
body:      …
epilogue:  clear the error register, if the word throws
errorPath: remove the frame
ret:       return
data:      one stub per further error register, and a nop if the literals need it
literals:  two words each, from an even position on
```
-/

namespace ForthJit

/-- Why a body cannot be copied to a call site, if it cannot. -/
def CompiledWord.inlineRefusal? (code : CompiledWord) (throws : Bool) : Option InlineRefusal :=
  if !code.leaf then some .makesCalls
  else if code.pcRelative then some .loadsLiterals
  else if code.earlyReturn then some .returnsEarly
  else if code.hasBranches then some .branches
  else if 0 < code.frameSize then some .needsFrame
  else if throws then some .raises
  else if code.layout.data ≠ code.layout.stop then some .trailingData
  else none

/-- The first placeholder from `start` up to `stop`: its tag, and how far it is from `start`. -/
def CodeHeap.survivor? (h : CodeHeap) (start stop : Nat) : Option (Nat × Nat) :=
  (h.words start stop).toList.zipIdx.findSome? fun (w, n) => (Placeholder.tagOf? w).map (·, n)

/-- Positions of the two exits and of the return. -/
structure Exits where
  epilogue : Nat
  errorPath : Nat
  ret : Nat

/-- How a word was laid out. -/
structure Laid where
  layout : WordLayout
  /-- Bytes of stack reserved for locals. -/
  frameSize : Nat
  clobbers : RegSet

/-- What a finished word adds to its entry. -/
structure Finished where
  code : CompiledWord
  clobbers : RegSet

namespace Emit

/-- A finished body leaves as many values as declared, and no open branch. -/
def checkFinished : Emit Unit := do
  let w ← word
  match w.control with
  | .ifPart .. :: _ => throw (.control (.openIf w.name))
  | .elsePart .. :: _ => throw (.control (.openElse w.name))
  | [] =>
    unless w.unreachable || w.depth = w.signature.outputs do
      throw (.arity (.exit w.name w.signature.outputs w.depth))

/-- The normal exit, frame removal and return. -/
def emitExits (frame : Frame) (errorReg : Reg) (throws : Bool) : Emit Exits := do
  let epilogue ← here
  emitAll (if throws then [Asm.mov errorReg .xzr] else [])
  let errorPath ← here
  emitAll (← assembled frame.epilogue)
  let ret ← emit .ret
  return { epilogue, errorPath, ret }

/-- One stub for each of `regs`, which moves it to the error register and leaves. -/
def emitStubs (errorReg : Reg) (errorPath : Nat) : List Reg → Emit (List (Reg × Nat))
  | [] => return []
  | reg :: rest => do
    let index ← emit (Asm.mov errorReg reg)
    let leave ← assembled (Asm.b (distance (← here) errorPath))
    let _ ← emit leave
    return (reg, index) :: (← emitStubs errorReg errorPath rest)

/-- The literals, from an even position on; gives the position of the first. -/
def emitLiterals (values : List Cell) : Emit Nat := do
  emitAll (if !values.isEmpty && (← here) % 2 = 1 then [.nop] else [])
  let start ← here
  values.forM fun value => do
    let _ ← onHeap (CodeHeap.emitLiteral value)
  return start

/-- Apply patches one after the other. -/
def patchAll (patches : List (Nat × Instruction)) : Emit Unit :=
  patches.forM fun (index, i) => patch index i

/-- Fill the reserved slots: `nop` first, then the frame setup.  Gives the position of the first
instruction to be executed. -/
def fillPrologue (start : Nat) (frame : Frame) : Emit Nat := do
  let setup ← assembled frame.prologue
  let skipped := prologueSlots - setup.length
  let slots := List.replicate skipped .nop ++ setup
  patchAll (slots.zipIdx.map fun (i, n) => (start + n, i))
  return start + skipped

/-- No placeholder is left from `start` up to `data`. -/
def verify (start data : Nat) : Emit Unit := do
  let draft ← get
  match draft.heap.survivor? start data with
  | some (tag, n) => throw (.unpatched draft.word.name tag n)
  | none => return

/-- Emit what follows the body and patch every placeholder. -/
def layOut (throws : Bool) : Emit Laid := do
  checkFinished
  let w ← word
  let settings ← read
  let errorReg := settings.convention.errorReg w.signature.outputs
  let overwritten := if throws then w.clobbered.insert errorReg else w.clobbered
  let locals ← assembled (Locals.resolve overwritten w.locals)
  let frame := Frame.create w.leaf locals.slots
  let exits ← emitExits frame errorReg throws
  let data ← here
  let stubs ← emitStubs errorReg exits.errorPath (PendingPatch.stubRegisters errorReg w.patches)
  let literals ← emitLiterals (PendingPatch.literals w.patches)
  let stop ← here
  let entry ← fillPrologue w.start frame
  let targets : PatchTargets :=
    { entry, epilogue := exits.epilogue, errorPath := exits.errorPath, errorReg, stubs, literals,
      checkRecursion := throws && w.signature.autoTry }
  patchAll (← takePatches targets)
  patchAll locals.patches
  return {
    layout :=
      { start := w.start, entry, body := w.body, epilogue := exits.epilogue,
        errorPath := exits.errorPath, ret := exits.ret, data, literals, stop }
    frameSize := frame.size, clobbers := overwritten.union locals.homes }

/-- Lay out the open definition, whose word throws as `throws` says. -/
def finish (throws : Bool) : Emit Finished := do
  let laid ← layOut throws
  let w ← word
  verify w.start laid.layout.data
  let code : CompiledWord :=
    { layout := laid.layout, pcRelative := w.pcRelative, hasBranches := w.hasBranches,
      earlyReturn := w.earlyReturn, leaf := w.leaf, frameSize := laid.frameSize }
  let inlinable := (code.inlineRefusal? throws).isNone &&
    laid.layout.epilogue - laid.layout.body ≤ (← read).inlineThreshold
  return { code := { code with inlinable }, clobbers := laid.clobbers }

end Emit

end ForthJit
