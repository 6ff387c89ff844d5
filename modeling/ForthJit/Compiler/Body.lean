import ForthJit.Compiler.Transfer
import ForthJit.Compiler.Word

/-!
# Bodies of definitions

Literals, strings, locals and raw instructions.  Calls and branches have modules of their own.
-/

namespace ForthJit

namespace Emit

/-- Bind the newest value to the local called `name`, which is declared if need be. -/
def setLocal (name : String) : Emit Unit := do
  let (id, locals) := (← word).locals.declare name
  modifyWord fun w => { w with locals }
  bindLocal id

/-- Push the value of the local called `name`. -/
def getLocalCalled (name : String) : Emit Unit := do
  match (← word).locals.find? name with
  | some id => getLocal id
  | none => throw (.uninitializedLocal name)

/-- Emit an instruction word that overwrites `clobbers`; gives its position. -/
def instruction (w : InstrWord) (clobbers : RegSet) : Emit Nat := do
  clobber clobbers
  emitWord w

end Emit

namespace Compiler

/-- Push a constant. -/
def literal (value : Cell) : CompileM Unit := emitting (Emit.literal value)

/-- Copy `text` to the constants and push its address and its length in bytes. -/
def string (text : String) : CompileM Unit := do
  let _ ← active
  let bytes := text.toUTF8.data
  let address ← onHeap (CodeHeap.addConstant bytes)
  literal (BitVec.ofNat 64 address)
  literal (BitVec.ofNat 64 bytes.size)

def setLocal (name : String) : CompileM Unit := emitting (Emit.setLocal name)

def getLocal (name : String) : CompileM Unit := emitting (Emit.getLocalCalled name)

def instruction (w : InstrWord) (clobbers : RegSet) : CompileM Nat :=
  emitting (Emit.instruction w clobbers)

/-- Reserve zeroed cells of data; gives the address of the first. -/
def allocateCells (cells : Nat) : CompileM Nat :=
  onHeap (CodeHeap.allocateData (cells * 8) 8)

end Compiler

end ForthJit
