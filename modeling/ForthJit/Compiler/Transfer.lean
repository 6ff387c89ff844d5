import ForthJit.Compiler.Convention
import ForthJit.Compiler.Draft

/-!
# Values between words

How values get to where the convention wants them: literals, local bindings, the arguments and
results of calls, and the error codes that calls leave.
-/

namespace ForthJit

namespace Emit

variable {α : Type}

def convention : Emit Convention := return (← read).convention

/-- The outcome of an arity check. -/
def arity (result : Except ArityError α) : Emit α :=
  match result with
  | .ok a => pure a
  | .error e => throw (.arity e)

/-- Push `reg` on the data stack. -/
def push (reg : Reg) : Emit Unit := do
  let _ ← emit (← assembled (Asm.strPre reg .dataStack 8))

/-- Pop the data stack into `reg`. -/
def pop (reg : Reg) : Emit Unit := do
  clobber (.singleton reg)
  let _ ← emit (← assembled (Asm.ldrPost reg .dataStack (-8)))

/-- Count the value computed in `reg`, the register that `Convention.produceReg` named. -/
def produce (reg : Reg) : Emit Unit := do
  match ← convention with
  | .register => pure ()
  | .stack => push reg
  setDepth ((← depth) + 1)

/-- Take the newest value; gives the register that holds it. -/
def consume (what : String) : Emit Reg := do
  let depth ← depth
  if depth = 0 then
    throw (.arity (.underflow what))
  match ← convention with
  | .register =>
    setDepth (depth - 1)
    return .ofNat (depth - 1)
  | .stack =>
    pop .transfer
    setDepth (depth - 1)
    return .transfer

/-- Bind the newest value to local `id`. -/
def bindLocal (id : Nat) : Emit Unit := do
  let name := ((← word).locals[id]?.map (·.name)).getD ""
  let reg ← consume ("-> " ++ name)
  assignLocal id reg

/-- Move the `count` newest values to `x0` and up, oldest first. -/
def spreadInputs (count : Nat) : Emit Unit := do
  match ← convention with
  | .register => return
  | .stack => (List.range count).reverse.forM fun i => pop (.ofNat i)

/-- Make the values in `x0` and up the newest ones. -/
def gatherOutputs (count : Nat) : Emit Unit := do
  match ← convention with
  | .register => return
  | .stack => (List.range count).forM fun i => push (.ofNat i)

/-- Turn the error code in `reg` into a value. -/
def exposeError (reg : Reg) : Emit Unit := do
  match ← convention with
  | .register =>
    let depth ← depth
    let target ← arity (Convention.produceReg .register depth)
    if reg ≠ target then
      clobber (.singleton target)
      let _ ← emit (Asm.mov target reg)
    setDepth (depth + 1)
  | .stack =>
    push reg
    if reg = .error then
      let _ ← emit (Asm.mov .error .xzr)
    setDepth ((← depth) + 1)

/-- Deal with the error code that a callee left in `reg`. -/
def checkError (reg : Reg) : Emit Unit := do
  if (← word).signature.autoTry then raiseIfNonzero reg else exposeError reg

/-- Push a constant. -/
def literal (value : Cell) : Emit Unit := do
  let reg ← arity ((← convention).produceReg (← depth))
  loadImmediate reg value
  produce reg

/-- Push the value of local `id`. -/
def getLocal (id : Nat) : Emit Unit := do
  let reg ← arity ((← convention).produceReg (← depth))
  readLocal id reg
  produce reg

/-- The call itself, with arguments and results in place; gives the register in which the callee
leaves its error code. -/
def callEntry (callee : Entry) : Emit Reg := do
  match ← convention with
  | .register =>
    match callee.kind with
    | .compiled code =>
      clobber (callee.clobbers.union (.range 0 callee.outputs))
      callWord code.layout.entry
      return .ofNat callee.outputs
    | .intrinsic function =>
      clobber .callerSaved
      callAddress function false
      return .ofNat 1
    | .external slot _ =>
      clobber .callerSaved
      callAddress slot true
      return .ofNat 1
  | .stack =>
    match callee.kind with
    | .compiled code =>
      clobber (callee.clobbers.insert .transfer)
      callWord code.layout.entry
      return .error
    | .intrinsic function =>
      spreadInputs callee.inputs
      clobber .callerSaved
      callAddress function false
      gatherOutputs callee.outputs
      return .ofNat 1
    | .external slot _ =>
      spreadInputs callee.inputs
      clobber .callerSaved
      callAddress slot true
      gatherOutputs callee.outputs
      return .ofNat 1

/-- Call `callee`. -/
def call (callee : Entry) : Emit Unit := do
  let depth ← depth
  arity ((← convention).checkArity callee.name depth callee.inputs)
  let errorReg ← callEntry callee
  setDepth (depth - callee.inputs + callee.outputs)
  if callee.flags.throws then
    checkError errorReg

/-- Copy the body of `callee` in place of a call. -/
def inlineBody (callee : Entry) (body : List InstrWord) : Emit Unit := do
  let depth ← depth
  arity ((← convention).checkArity callee.name depth callee.inputs)
  clobber callee.clobbers
  onHeap (CodeHeap.emitAll body)
  setDepth (depth - callee.inputs + callee.outputs)

end Emit

end ForthJit
