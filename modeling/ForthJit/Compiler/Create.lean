import ForthJit.Compiler.Primitive
import ForthJit.Intrinsic
import ForthJit.Memory.DataStack

/-!
# Starting a compiler

A new compiler has its entry code published and its built-in words defined: intrinsics first, then
primitives.
-/

namespace ForthJit.Compiler

/-- Enter an intrinsic in the dictionary. -/
def registerIntrinsic (i : Intrinsic) : CompileM Unit := do
  let id ← createEntry
    { name := i.name, kind := .intrinsic i.function, inputs := i.inputs, outputs := i.outputs,
      clobbers := .callerSaved
      flags :=
        { throws := i.throws, autoTry := true, interpreterOnly := i.interpreterOnly
          quiet := true } }
  publish id

/-- Make the data stack that `s` asks for, which is none under the register convention; gives the
number of its cells and the system after that. -/
def makeStack (host : Host) (s : Settings) : Except MemoryError (Nat × Host) :=
  match s.convention with
  | .register => .ok (0, host)
  | .stack => (DataStack.create host s.dataStackDepth).map fun stack =>
    (stack.cells, stack.memory.host)

/-- The heap with the published entry code. -/
def startHeap (s : Settings) : EStateM CompileError CodeHeap Nat := do
  let thunk ← s.convention.emitThunk
  let published : EStateM CompileError CodeHeap Unit := fun heap =>
    match CodeHeap.sync heap with
    | .ok _ heap => .ok () heap
    | .error e heap => .error (.memory e) heap
  published
  return thunk

/-- Start a compiler on `host`. -/
def create (host : Host) (s : Settings) : Except CompileError Compiler := do
  let s ← s.validate.mapError .settings
  let heap ← (CodeHeap.create host s.layout).mapError .memory
  let (stackCells, host) ← (makeStack heap.memory.host s).mapError .memory
  match startHeap s { heap with memory := { heap.memory with host } } with
  | .error e _ => .error e
  | .ok thunk heap =>
    let empty : Compiler :=
      { settings := s, heap, dictionary := {}, stackCells, definition := none, thunk,
        redefinitions := #[] }
    let builtIn : CompileM Unit := do
      Intrinsic.all.forM registerIntrinsic
      definePrimitives
    match builtIn empty with
    | .ok _ c => .ok c
    | .error e _ => .error e

end ForthJit.Compiler
