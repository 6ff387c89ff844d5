import ForthJit.Compiler.Error
import ForthJit.Definition.Basic
import ForthJit.Machine.Constant

/-!
# Emission

Code is emitted into a `Draft`: the heap together with the open definition.  Every register write
is announced by `clobber` first, so that a local whose value is only in that register is saved
before the register is reused.
-/

namespace ForthJit

structure Draft where
  heap : CodeHeap
  word : Definition

/-- Emission into a draft.  An error comes with the draft it left. -/
abbrev Emit := ReaderT Settings (EStateM CompileError Draft)

namespace Emit

variable {α : Type}

/-- Run a heap operation. -/
def onHeap (operation : HeapM α) : Emit α := fun _ draft =>
  match draft with
  | ⟨heap, word⟩ =>
    match operation heap with
    | .ok a heap => .ok a ⟨heap, word⟩
    | .error e heap => .error (.memory e) ⟨heap, word⟩

/-- The instruction that was assembled. -/
def assembled (result : Except EncodeError α) : Emit α :=
  match result with
  | .ok a => pure a
  | .error e => throw (.encode e)

def word : Emit Definition := return (← get).word

def modifyWord (f : Definition → Definition) : Emit Unit :=
  modify fun draft => { draft with word := f draft.word }

/-- Position of the next instruction. -/
def here : Emit Nat := return (← get).heap.here

def depth : Emit Nat := return (← get).word.depth

def setDepth (depth : Nat) : Emit Unit := modifyWord fun w => { w with depth }

def emitWord (w : InstrWord) : Emit Nat := onHeap (CodeHeap.emit w)

def emit (i : Instruction) : Emit Nat := emitWord i.encode

def emitAll (is : List Instruction) : Emit Unit :=
  onHeap (CodeHeap.emitAll (is.map Instruction.encode))

def placeholder (p : Placeholder) : Emit Nat := emitWord p.word

def patch (index : Nat) (i : Instruction) : Emit Unit := onHeap (CodeHeap.patch index i.encode)

def pushPatch (p : PendingPatch) : Emit Unit :=
  modifyWord fun w => { w with patches := w.patches ++ [p] }

/-- The final instructions of the pending patches, of which none is left. -/
def takePatches (targets : PatchTargets) : Emit (List (Nat × Instruction)) := do
  match PendingPatch.resolve targets (← word).patches with
  | .ok resolved patches =>
    modifyWord fun w => { w with patches }
    return resolved
  | .error e patches =>
    modifyWord fun w => { w with patches }
    throw (.encode e)

/-- Save the locals that are only in `regs`. -/
def spill (regs : RegSet) : Emit Unit := do
  let draft ← get
  let spilled := Locals.clobber regs draft.heap.position? 0 draft.word.locals
  modifyWord fun w => { w with locals := spilled.locals }
  onHeap (CodeHeap.emitAll (List.replicate spilled.writes Placeholder.localWrite.word))
  unless spilled.complete do
    throw (.memory (.exhausted .code wordBytes 0))

/-- The registers in `regs` are about to be overwritten. -/
def clobber (regs : RegSet) : Emit Unit := do
  spill regs
  modifyWord fun w => { w with clobbered := w.clobbered.union regs }

/-- Two paths meet: no local stays in a register. -/
def barrier : Emit Unit := spill .full

/-- Put `value` in `reg`, by moves if they are few, else from a literal after the word. -/
def loadImmediate (reg : Reg) (value : Cell) : Emit Unit := do
  clobber (.singleton reg)
  match Constant.moves? reg value (← read).maxInlineChunks with
  | some moves => emitAll moves
  | none =>
    let index ← placeholder .largeImmediate
    pushPatch (.literal index reg value)
    modifyWord fun w => { w with pcRelative := true }

/-- Call the compiled word that starts at `entry`. -/
def callWord (entry : Nat) : Emit Unit := do
  let call ← assembled (Asm.bl (distance (← here) entry))
  let _ ← emit call
  modifyWord fun w => { w with leaf := false }

/-- Call a platform function at `address`, or at the address that the slot at `address` holds. -/
def callAddress (address : Nat) (throughSlot : Bool) : Emit Unit := do
  loadImmediate .scratch (BitVec.ofNat 64 address)
  if throughSlot then
    let _ ← emit (← assembled (Asm.ldr .scratch .scratch 0))
  let _ ← emit (.callReg .scratch)
  modifyWord fun w => { w with leaf := false }

/-- Leave through the error path if `reg` is nonzero. -/
def raiseIfNonzero (reg : Reg) : Emit Unit := do
  let index ← placeholder .errorBranch
  pushPatch (.error index reg)
  modifyWord fun w => { w with raises := true, hasBranches := true }

/-- Put the value of local `id` in `target`. -/
def readLocal (id : Nat) (target : Reg) : Emit Unit := do
  match (← word).locals[id]? with
  | none => return
  | some l =>
    match l.access? target with
    | none => throw (.uninitializedLocal l.name)
    | some .inPlace => return
    | some (.move source) =>
      clobber (.singleton target)
      let _ ← emit (Asm.mov target source)
    | some .load =>
      clobber (.singleton target)
      let index ← placeholder .localRead
      modifyWord fun w => { w with locals := w.locals.modify id (·.recordRead index target) }

/-- Local `id` now lives in `reg`. -/
def assignLocal (id : Nat) (reg : Reg) : Emit Unit :=
  modifyWord fun w => { w with locals := w.locals.modify id (·.assign reg) }

end Emit

end ForthJit
