import ForthJit.Machine.Field
import ForthJit.Machine.Instruction

/-!
# Assembler

One function per mnemonic.  Those with an immediate check it against its field, in the order in
which the fields are reported: first the alignment of a scaled offset, then the range.
-/

namespace ForthJit.Asm

open Instruction

/-! ## Moves -/

/-- The shift position is checked before the chunk. -/
def wide (op : WideMove) (rd : Reg) (imm : Cell) (hw : Nat) : Except EncodeError Instruction := do
  let hw ← Field.unsigned "hw" 2 (BitVec.ofNat 64 hw)
  let imm ← Field.unsigned "imm16" 16 imm
  return wideMove op rd imm hw

/-- `movz rd, #imm, lsl #(16 * hw)` -/
def movz (rd : Reg) (imm : Cell) (hw : Nat) : Except EncodeError Instruction :=
  wide .zero rd imm hw

/-- `movk rd, #imm, lsl #(16 * hw)` -/
def movk (rd : Reg) (imm : Cell) (hw : Nat) : Except EncodeError Instruction :=
  wide .keep rd imm hw

/-- `movn rd, #imm, lsl #(16 * hw)` -/
def movn (rd : Reg) (imm : Cell) (hw : Nat) : Except EncodeError Instruction :=
  wide .not rd imm hw

/-- `mov rd, rm`; number 31 reads as zero. -/
def mov (rd rm : Reg) : Instruction := alu .orr rd .xzr rm

/-- `mov rd, rn`; number 31 is the stack pointer on both sides. -/
def movSp (rd rn : Reg) : Instruction := addImm rd rn 0 false

/-! ## Arithmetic and logic -/

/-- A 12-bit immediate, or one shifted left by 12 when its low 12 bits are clear. -/
def immediate12 (imm : Cell) : Except EncodeError (BitVec 12 × Bool) :=
  if imm.toNat < 4096 then
    (Field.unsigned "imm12" 12 imm).map (·, false)
  else if imm &&& 0xFFF = 0 then
    (Field.unsigned "imm12" 12 (imm >>> 12)).map (·, true)
  else
    .error (.outOfRange "imm12" imm.toInt 12 false)

/-- `add rd, rn, #imm`; number 31 is the stack pointer. -/
def addI (rd rn : Reg) (imm : Cell) : Except EncodeError Instruction :=
  (immediate12 imm).map fun (imm, shifted) => addImm rd rn imm shifted

/-- `sub rd, rn, #imm`; number 31 is the stack pointer. -/
def subI (rd rn : Reg) (imm : Cell) : Except EncodeError Instruction :=
  (immediate12 imm).map fun (imm, shifted) => subImm rd rn imm shifted

/-- `neg rd, rm` -/
def neg (rd rm : Reg) : Instruction := alu .sub rd .xzr rm

/-- `cmp rn, #imm` -/
def cmpI (rn : Reg) (imm : Cell) : Except EncodeError Instruction :=
  (Field.unsigned "imm12" 12 imm).map (cmpImm rn)

/-! ## Loads and stores -/

/-- A byte offset as an unsigned multiple of eight. -/
def cellOffset (field : String) (offset : Int) : Except EncodeError (BitVec 12) := do
  Field.unsigned field 12 (BitVec.ofInt 64 (← Field.scaled field offset 8))

/-- `ldr rt, [rn, #offset]` -/
def ldr (rt rn : Reg) (offset : Int) : Except EncodeError Instruction :=
  (cellOffset "ldr offset" offset).map (load rt rn)

/-- `str rt, [rn, #offset]` -/
def str (rt rn : Reg) (offset : Int) : Except EncodeError Instruction :=
  (cellOffset "str offset" offset).map (store rt rn)

/-- `ldr rt, [rn], #imm` -/
def ldrPost (rt rn : Reg) (imm : Int) : Except EncodeError Instruction :=
  (Field.signed "ldr post-index" 9 imm).map (indexed .loadAfter rt rn)

/-- `ldr rt, [rn, #imm]!` -/
def ldrPre (rt rn : Reg) (imm : Int) : Except EncodeError Instruction :=
  (Field.signed "ldr pre-index" 9 imm).map (indexed .loadBefore rt rn)

/-- `str rt, [rn], #imm` -/
def strPost (rt rn : Reg) (imm : Int) : Except EncodeError Instruction :=
  (Field.signed "str post-index" 9 imm).map (indexed .storeAfter rt rn)

/-- `str rt, [rn, #imm]!` -/
def strPre (rt rn : Reg) (imm : Int) : Except EncodeError Instruction :=
  (Field.signed "str pre-index" 9 imm).map (indexed .storeBefore rt rn)

/-- `ldr rt, pc + 4 * words` -/
def ldrLiteral (rt : Reg) (words : Int) : Except EncodeError Instruction :=
  (Field.signed "ldr literal" 19 words).map (loadLiteral rt)

def pairOf (op : PairOp) (field : String) (rt rt2 rn : Reg) (offset : Int) :
    Except EncodeError Instruction := do
  let imm ← Field.signed field 7 (← Field.scaled field offset 8)
  return pair op rt rt2 rn imm

/-- `stp rt, rt2, [rn, #offset]!` -/
def stpPre (rt rt2 rn : Reg) (offset : Int) : Except EncodeError Instruction :=
  pairOf .storeBefore "stp pre-index" rt rt2 rn offset

/-- `stp rt, rt2, [rn, #offset]` -/
def stp (rt rt2 rn : Reg) (offset : Int) : Except EncodeError Instruction :=
  pairOf .store "stp offset" rt rt2 rn offset

/-- `ldp rt, rt2, [rn], #offset` -/
def ldpPost (rt rt2 rn : Reg) (offset : Int) : Except EncodeError Instruction :=
  pairOf .loadAfter "ldp post-index" rt rt2 rn offset

/-- `ldp rt, rt2, [rn, #offset]` -/
def ldp (rt rt2 rn : Reg) (offset : Int) : Except EncodeError Instruction :=
  pairOf .load "ldp offset" rt rt2 rn offset

/-! ## Branches -/

/-- `b pc + 4 * words` -/
def b (words : Int) : Except EncodeError Instruction :=
  (Field.signed "b offset" 26 words).map branch

/-- `bl pc + 4 * words` -/
def bl (words : Int) : Except EncodeError Instruction :=
  (Field.signed "bl offset" 26 words).map branchLink

/-- `b.cond pc + 4 * words` -/
def bCond (cond : Cond) (words : Int) : Except EncodeError Instruction :=
  (Field.signed "b.cond offset" 19 words).map (branchIf cond)

/-- `cbz rt, pc + 4 * words` -/
def cbz (rt : Reg) (words : Int) : Except EncodeError Instruction :=
  (Field.signed "cbz offset" 19 words).map (branchZero rt)

/-- `cbnz rt, pc + 4 * words` -/
def cbnz (rt : Reg) (words : Int) : Except EncodeError Instruction :=
  (Field.signed "cbnz offset" 19 words).map (branchNonzero rt)

/-- `brk #imm` -/
def brk (imm : Cell) : Except EncodeError Instruction :=
  (Field.unsigned "brk" 16 imm).map trap

end ForthJit.Asm
