import ForthJit.Compiler.Transfer
import ForthJit.Compiler.Word

/-!
# Primitives

Words written as a few instructions with operands in `x0` and up.  Under the stack convention the
operands are popped before and the results pushed after.  A flag is all ones for true and zero for
false.
-/

namespace ForthJit

structure Primitive where
  name : String
  inputs : Nat
  outputs : Nat
  /-- Registers written besides those of the operands. -/
  scratch : RegSet := .empty
  body : List Instruction

namespace Primitive

/-- A word that replaces two values by the result of `op`. -/
def arithmetic (name : String) (op : AluOp) : Primitive :=
  { name, inputs := 2, outputs := 1, body := [.alu op (.ofNat 0) (.ofNat 0) (.ofNat 1)] }

/-- Make a flag of `cond`. -/
def flag (cond : Cond) : List Instruction :=
  [.cset (.ofNat 0) cond, Asm.neg (.ofNat 0) (.ofNat 0)]

/-- A word that replaces two values by the flag whether they compare as `cond` says. -/
def comparison (name : String) (cond : Cond) : Primitive :=
  { name, inputs := 2, outputs := 1, body := .cmp (.ofNat 0) (.ofNat 1) :: flag cond }

/-- All primitives, in the order in which they enter the dictionary. -/
def all : List Primitive :=
  let x0 := Reg.ofNat 0
  let x1 := Reg.ofNat 1
  let x2 := Reg.ofNat 2
  [ arithmetic "+" .add, arithmetic "-" .sub, arithmetic "*" .mul, arithmetic "and" .and,
    arithmetic "or" .orr, arithmetic "xor" .eor, arithmetic "lshift" .lslv,
    arithmetic "rshift" .asrv, comparison "=" .eq, comparison "<>" .ne, comparison "<" .lt,
    comparison ">" .gt, comparison "<=" .le, comparison ">=" .ge,
    { name := "negate", inputs := 1, outputs := 1, body := [Asm.neg x0 x0] },
    { name := "0=", inputs := 1, outputs := 1, body := .cmpImm x0 0 :: flag .eq },
    { name := "@", inputs := 1, outputs := 1, body := [.load x0 x0 0] },
    { name := "!", inputs := 2, outputs := 0, body := [.store x0 x1 0] },
    { name := "dup", inputs := 1, outputs := 2, body := [Asm.mov x1 x0] },
    { name := "drop", inputs := 1, outputs := 0, body := [] },
    { name := "swap", inputs := 2, outputs := 2, scratch := .singleton .scratch,
      body := [Asm.mov .scratch x0, Asm.mov x0 x1, Asm.mov x1 .scratch] },
    { name := "over", inputs := 2, outputs := 3, body := [Asm.mov x2 x0] },
    { name := "nip", inputs := 2, outputs := 1, body := [Asm.mov x0 x1] } ]

/-- The registers of `count` operands. -/
def operands (count : Nat) : RegSet := .ofList ((List.range count).map Reg.ofNat)

/-- All registers the primitive may write. -/
def clobbers (p : Primitive) : RegSet := (operands (max p.inputs p.outputs)).union p.scratch

end Primitive

/-- Instruction words between operands and results. -/
def Emit.primitiveBody (inputs outputs : Nat) (clobbers : RegSet) (body : List InstrWord) :
    Emit Unit := do
  spreadInputs inputs
  clobber clobbers
  onHeap (CodeHeap.emitAll body)
  gatherOutputs outputs
  setDepth outputs

namespace Compiler

/-- Define a word by the instruction words of its body, which may write `clobbers`. -/
def definePrimitive (name : String) (inputs outputs : Nat) (clobbers : RegSet)
    (body : List InstrWord) : CompileM EntryId := do
  let _ ← beginWord name { inputs, outputs, quiet := true }
  try
    emitting (Emit.primitiveBody inputs outputs clobbers body)
  catch e =>
    modify abandonWord
    throw e
  endWord

/-- Define the primitives. -/
def definePrimitives : CompileM Unit :=
  Primitive.all.forM fun p => do
    let _ ← definePrimitive p.name p.inputs p.outputs p.clobbers (p.body.map Instruction.encode)

end Compiler

end ForthJit
