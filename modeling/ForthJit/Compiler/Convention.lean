import ForthJit.Compiler.Error
import ForthJit.Machine.Assembler

/-!
# Calling conventions

A convention says where values live between words.

* Under the register convention `d` pending values are in `x0` to `x(d-1)`, newest last, and a word
  with `k` outputs leaves its error code in `xk`.  A call needs exactly the callee's inputs to be
  pending.
* Under the stack convention values are on a data stack that grows upwards; `x19` points at the
  newest.  Values pass through `x8`, and errors are in `x20`.
-/

namespace ForthJit

/-- Largest number of values a word takes or leaves. -/
def maxValues : Nat := 8

namespace Convention

/-- The register that holds the error code of a word with `outputs` results. -/
def errorReg : Convention → (outputs : Nat) → Reg
  | register, outputs => .ofNat outputs
  | stack, _ => .error

/-- Whether there is such a register: a number of results counts modulo 256 and must be that of a
register. -/
def hasErrorReg : Convention → (outputs : Nat) → Bool
  | register, outputs => outputs % 256 < 32
  | stack, _ => true

/-- Whether a call that takes `inputs` values can be made with `depth` values pending. -/
def checkArity (c : Convention) (callee : String) (depth inputs : Nat) : Except ArityError Unit :=
  if depth < inputs then
    .error (.call callee inputs depth)
  else if c = register ∧ inputs < depth then
    .error (.extraValues callee inputs depth)
  else
    .ok ()

/-- The register in which the next value is computed. -/
def produceReg : Convention → (depth : Nat) → Except ArityError Reg
  | register, depth =>
    if depth < maxValues then .ok (.ofNat depth) else .error (.overflow maxValues)
  | stack, _ => .ok .transfer

/-- The code through which compiled words are entered.

Under the register convention it takes the address of a block of cells and that of the word: it
loads the arguments from the block and stores the results and the error code back.  Under the
stack convention it takes the top of the data stack and the address of the word, and gives back the
new top and the error code. -/
def thunk : Convention → Except EncodeError (List Instruction)
  | register => do
    let block := Reg.dataStack
    let loads ← (List.range maxValues).mapM fun (i : Nat) => Asm.ldr (.ofNat i) block (8 * i)
    let stores ← (List.range (maxValues + 1)).mapM fun (i : Nat) => Asm.str (.ofNat i) block (8 * i)
    return [← Asm.stpPre .fp .lr .sp (-32), Asm.movSp .fp .sp, ← Asm.str block .sp 16,
        Asm.mov block (.ofNat 0), Asm.mov .scratch (.ofNat 1)] ++
      loads ++ [.callReg .scratch] ++ stores ++
      [← Asm.ldr block .sp 16, ← Asm.ldpPost .fp .lr .sp 32, .ret]
  | stack => do
    return [← Asm.stpPre .fp .lr .sp (-32), Asm.movSp .fp .sp, ← Asm.stp .dataStack .error .sp 16,
      Asm.mov .dataStack (.ofNat 0), Asm.mov .error .xzr, .callReg (.ofNat 1),
      Asm.mov (.ofNat 0) .dataStack, Asm.mov (.ofNat 1) .error,
      ← Asm.ldp .dataStack .error .sp 16, ← Asm.ldpPost .fp .lr .sp 32, .ret]

/-- Stage the entry code; gives its position. -/
def emitThunk (c : Convention) : EStateM CompileError CodeHeap Nat := fun heap =>
  match c.thunk with
  | .error e => .error (.encode e) heap
  | .ok code =>
    let entry := heap.here
    match CodeHeap.emitAll (code.map Instruction.encode) heap with
    | .ok _ heap => .ok entry heap
    | .error e heap => .error (.memory e) heap

/-- Largest number of values that can be passed in or out; `cells` is the size of the data stack. -/
def valueLimit : Convention → (cells : Nat) → Nat
  | register, _ => maxValues
  | stack, cells => cells

/-- Whether `args` values can be passed in and `outputs` out. -/
def checkValues (c : Convention) (cells args outputs : Nat) : Except CompileError Unit :=
  let limit := c.valueLimit cells
  if limit < args ∨ limit < outputs then .error (.arity (.overflow limit)) else .ok ()

/-- What a word with `outputs` results gives or raises, if the machine runs it and leaves `run`.
Under the register convention a word that may raise leaves its error code after its results. -/
def outcome (c : Convention) (outputs : Nat) (mayRaise : Bool) :
    (run : Option Execution) → Except CompileError (List Cell)
  | none => .error (.unsupported .execution)
  | some run =>
    match c with
    | register =>
      let error := if mayRaise then run.cells.getD outputs 0 else 0
      if error = 0 then .ok ((List.range outputs).map (run.cells.getD · 0))
      else .error (.raised error)
    | stack =>
      if run.error ≠ 0 then .error (.raised run.error)
      else if run.cells.length ≠ outputs then .error (.miscounted run.cells.length outputs)
      else .ok run.cells

end Convention

end ForthJit
