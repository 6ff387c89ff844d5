import ForthJit.Machine.Condition
import ForthJit.Machine.Register
import ForthJit.Machine.Word

/-!
# Instructions

The instruction forms the compiler uses, with operands of exactly the width of their fields, and
the 32-bit word of each.  A word is written as the concatenation of its fields, most significant
first, so the opcode constants below are only the bits between the operand fields.
-/

namespace ForthJit

/-- Moves of a 16-bit chunk. -/
inductive WideMove where
  /-- Set the chunk, clear the rest. -/
  | zero
  /-- Set the inverted chunk, fill the rest with ones. -/
  | not
  /-- Set the chunk, keep the rest. -/
  | keep
  deriving DecidableEq

/-- Three-register operations. -/
inductive AluOp where
  | add | sub | mul | sdiv | and | orr | eor | lslv | asrv
  deriving DecidableEq

/-- Single-register loads and stores that also move their base register. -/
inductive Indexed where
  | loadAfter | loadBefore | storeAfter | storeBefore
  deriving DecidableEq

/-- Register-pair loads and stores. -/
inductive PairOp where
  | storeBefore | store | loadAfter | load
  deriving DecidableEq

inductive Instruction where
  | wideMove (op : WideMove) (rd : Reg) (imm : BitVec 16) (hw : BitVec 2)
  | addImm (rd rn : Reg) (imm : BitVec 12) (shifted : Bool)
  | subImm (rd rn : Reg) (imm : BitVec 12) (shifted : Bool)
  | alu (op : AluOp) (rd rn rm : Reg)
  | cmp (rn rm : Reg)
  | cmpImm (rn : Reg) (imm : BitVec 12)
  | cset (rd : Reg) (cond : Cond)
  | load (rt rn : Reg) (imm : BitVec 12)
  | store (rt rn : Reg) (imm : BitVec 12)
  | indexed (op : Indexed) (rt rn : Reg) (imm : BitVec 9)
  | loadLiteral (rt : Reg) (words : BitVec 19)
  | pair (op : PairOp) (rt rt2 rn : Reg) (imm : BitVec 7)
  | branch (words : BitVec 26)
  | branchLink (words : BitVec 26)
  | branchIf (cond : Cond) (words : BitVec 19)
  | branchZero (rt : Reg) (words : BitVec 19)
  | branchNonzero (rt : Reg) (words : BitVec 19)
  | callReg (rn : Reg)
  | jumpReg (rn : Reg)
  | ret
  | nop
  | trap (imm : BitVec 16)
  deriving DecidableEq

namespace WideMove

def opcode : WideMove → BitVec 9
  | zero => 0x1A5
  | not => 0x125
  | keep => 0x1E5

end WideMove

namespace AluOp

/-- The bits above the second operand register. -/
def opcode : AluOp → BitVec 11
  | add => 0x458
  | sub => 0x658
  | mul => 0x4D8
  | sdiv | lslv | asrv => 0x4D6
  | and => 0x450
  | orr => 0x550
  | eor => 0x650

/-- The bits between the second and the first operand register. -/
def subcode : AluOp → BitVec 6
  | mul => 0x1F
  | sdiv => 0x03
  | lslv => 0x08
  | asrv => 0x0A
  | add | sub | and | orr | eor => 0x00

end AluOp

namespace Indexed

def opcode : Indexed → BitVec 11
  | loadAfter | loadBefore => 0x7C2
  | storeAfter | storeBefore => 0x7C0

/-- Whether the base register moves after the access (`01`) or before it (`11`). -/
def mode : Indexed → BitVec 2
  | loadAfter | storeAfter => 1
  | loadBefore | storeBefore => 3

end Indexed

namespace PairOp

def opcode : PairOp → BitVec 10
  | storeBefore => 0x2A6
  | store => 0x2A4
  | loadAfter => 0x2A3
  | load => 0x2A5

end PairOp

namespace Instruction

/-- The instruction word of an instruction. -/
def encode : Instruction → InstrWord
  | wideMove op rd imm hw => op.opcode ++ hw ++ imm ++ rd.code
  | addImm rd rn imm shifted => 0x122#9 ++ BitVec.ofBool shifted ++ imm ++ rn.code ++ rd.code
  | subImm rd rn imm shifted => 0x1A2#9 ++ BitVec.ofBool shifted ++ imm ++ rn.code ++ rd.code
  | alu op rd rn rm => op.opcode ++ rm.code ++ op.subcode ++ rn.code ++ rd.code
  | cmp rn rm => 0x758#11 ++ rm.code ++ 0#6 ++ rn.code ++ 31#5
  | cmpImm rn imm => 0x3C4#10 ++ imm ++ rn.code ++ 31#5
  | cset rd cond => 0x9A9F#16 ++ cond.invert.code ++ 0x3F#7 ++ rd.code
  | load rt rn imm => 0x3E5#10 ++ imm ++ rn.code ++ rt.code
  | store rt rn imm => 0x3E4#10 ++ imm ++ rn.code ++ rt.code
  | indexed op rt rn imm => op.opcode ++ imm ++ op.mode ++ rn.code ++ rt.code
  | loadLiteral rt words => 0x58#8 ++ words ++ rt.code
  | pair op rt rt2 rn imm => op.opcode ++ imm ++ rt2.code ++ rn.code ++ rt.code
  | branch words => 0x05#6 ++ words
  | branchLink words => 0x25#6 ++ words
  | branchIf cond words => 0x54#8 ++ words ++ 0#1 ++ cond.code
  | branchZero rt words => 0xB4#8 ++ words ++ rt.code
  | branchNonzero rt words => 0xB5#8 ++ words ++ rt.code
  | callReg rn => 0x358FC0#22 ++ rn.code ++ 0#5
  | jumpReg rn => 0x3587C0#22 ++ rn.code ++ 0#5
  | ret => 0x3597C0#22 ++ Reg.lr.code ++ 0#5
  | nop => 0xD503201F#32
  | trap imm => 0x6A1#11 ++ imm ++ 0#5

end Instruction

end ForthJit
