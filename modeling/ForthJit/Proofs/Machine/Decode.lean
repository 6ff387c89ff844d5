import ForthJit.Machine.Instruction
import Mathlib

/-!
# Reading instruction words

`Instruction.decode?` is the inverse of `Instruction.encode`: it reads exactly the words that are
the word of an instruction, and gives that instruction.  So no two instructions have the same word.
-/

namespace ForthJit

/-- The condition with this four-bit field. -/
def Cond.ofCode? (code : BitVec 4) : Option Cond := Cond.all.find? fun c => c.code == code

@[simp] theorem Cond.ofCode?_code (c : Cond) : ofCode? c.code = some c := by cases c <;> rfl

namespace Instruction

/-- The register whose number is at `shift`. -/
def regAt (w : InstrWord) (shift : Nat) : Reg := ⟨w.extractLsb' shift 5⟩

/-- What the word of an instruction with an 11-bit opcode stands for. -/
def guessByOpcode (w : InstrWord) : Option Instruction :=
  let alu (op : AluOp) : Option Instruction := some (.alu op (regAt w 0) (regAt w 5) (regAt w 16))
  let indexed (after before : Indexed) : Option Instruction :=
    let op := if w.extractLsb' 10 2 = 1#2 then after else before
    some (.indexed op (regAt w 0) (regAt w 5) (w.extractLsb' 12 9))
  match (w.extractLsb' 21 11).toNat with
  | 0x458 => alu .add
  | 0x658 => alu .sub
  | 0x4D8 => alu .mul
  | 0x450 => alu .and
  | 0x550 => alu .orr
  | 0x650 => alu .eor
  | 0x4D6 =>
    match (w.extractLsb' 10 6).toNat with
    | 0x03 => alu .sdiv
    | 0x08 => alu .lslv
    | _ => alu .asrv
  | 0x758 => some (.cmp (regAt w 5) (regAt w 16))
  | 0x4D4 => (Cond.ofCode? (w.extractLsb' 12 4)).map fun cond => .cset (regAt w 0) cond.invert
  | 0x7C2 => indexed .loadAfter .loadBefore
  | 0x7C0 => indexed .storeAfter .storeBefore
  | 0x6B1 => some (.callReg (regAt w 5))
  | 0x6B0 => some (.jumpReg (regAt w 5))
  | 0x6B2 => some .ret
  | 0x6A1 => some (.trap (w.extractLsb' 5 16))
  | _ => some .nop

/-- What a word stands for if it is the word of an instruction.  The opcodes are told apart by
length, shortest first. -/
def guess (w : InstrWord) : Option Instruction :=
  match (w.extractLsb' 26 6).toNat with
  | 0x05 => some (.branch (w.extractLsb' 0 26))
  | 0x25 => some (.branchLink (w.extractLsb' 0 26))
  | _ =>
  match (w.extractLsb' 24 8).toNat with
  | 0x58 => some (.loadLiteral (regAt w 0) (w.extractLsb' 5 19))
  | 0x54 => (Cond.ofCode? (w.extractLsb' 0 4)).map fun cond => .branchIf cond (w.extractLsb' 5 19)
  | 0xB4 => some (.branchZero (regAt w 0) (w.extractLsb' 5 19))
  | 0xB5 => some (.branchNonzero (regAt w 0) (w.extractLsb' 5 19))
  | _ =>
  match (w.extractLsb' 23 9).toNat with
  | 0x1A5 => some (.wideMove .zero (regAt w 0) (w.extractLsb' 5 16) (w.extractLsb' 21 2))
  | 0x125 => some (.wideMove .not (regAt w 0) (w.extractLsb' 5 16) (w.extractLsb' 21 2))
  | 0x1E5 => some (.wideMove .keep (regAt w 0) (w.extractLsb' 5 16) (w.extractLsb' 21 2))
  | 0x122 =>
    some (.addImm (regAt w 0) (regAt w 5) (w.extractLsb' 10 12) (w.extractLsb' 22 1 == 1#1))
  | 0x1A2 =>
    some (.subImm (regAt w 0) (regAt w 5) (w.extractLsb' 10 12) (w.extractLsb' 22 1 == 1#1))
  | _ =>
  match (w.extractLsb' 22 10).toNat with
  | 0x3C4 => some (.cmpImm (regAt w 5) (w.extractLsb' 10 12))
  | 0x3E5 => some (.load (regAt w 0) (regAt w 5) (w.extractLsb' 10 12))
  | 0x3E4 => some (.store (regAt w 0) (regAt w 5) (w.extractLsb' 10 12))
  | 0x2A6 => some (.pair .storeBefore (regAt w 0) (regAt w 10) (regAt w 5) (w.extractLsb' 15 7))
  | 0x2A4 => some (.pair .store (regAt w 0) (regAt w 10) (regAt w 5) (w.extractLsb' 15 7))
  | 0x2A3 => some (.pair .loadAfter (regAt w 0) (regAt w 10) (regAt w 5) (w.extractLsb' 15 7))
  | 0x2A5 => some (.pair .load (regAt w 0) (regAt w 10) (regAt w 5) (w.extractLsb' 15 7))
  | _ => guessByOpcode w

/-- The instruction that has the word `w`. -/
def decode? (w : InstrWord) : Option Instruction := (guess w).filter fun i => i.encode = w

theorem guess_encode (i : Instruction) : guess i.encode = some i := by
  -- Where the opcode depends on the operation, each operation is a case of its own.
  rcases i with ⟨_ | _ | _⟩ | ⟨_, _, _, _ | _⟩ | ⟨_, _, _, _ | _⟩ |
    ⟨_ | _ | _ | _ | _ | _ | _ | _ | _⟩ | _ | _ | _ | _ | _ | ⟨_ | _ | _ | _⟩ | _ |
    ⟨_ | _ | _ | _⟩ | _ | _ | _ | _ | _ | _ | _ | _ | _ | _
  case ret | nop => rfl
  all_goals
    simp (disch := omega) only [guess, guessByOpcode, regAt, encode, WideMove.opcode, AluOp.opcode,
      AluOp.subcode, Indexed.opcode, Indexed.mode, PairOp.opcode, Cond.ofCode?_code,
      Cond.invert_invert, Option.map_some, BitVec.extractLsb'_append_eq_of_le,
      BitVec.extractLsb'_append_eq_of_add_le, BitVec.extractLsb'_eq_self, BitVec.reduceExtractLsb',
      BitVec.ofNat_eq_ofNat, BitVec.toNat_ofNat, Nat.reducePow, Nat.reduceMod, Nat.reduceSub]
  all_goals rfl

theorem decode?_eq_some {w : InstrWord} {i : Instruction} : decode? w = some i ↔ i.encode = w := by
  unfold decode?
  constructor
  · intro read
    simpa using (Option.filter_eq_some_iff.1 read).2
  · rintro rfl
    rw [guess_encode, Option.filter_some, if_pos (by simp)]

/-- No two instructions have the same word. -/
theorem encode_injective {i j : Instruction} (same : i.encode = j.encode) : i = j := by
  have read : decode? i.encode = some i := decode?_eq_some.2 rfl
  rw [same, decode?_eq_some.2 rfl] at read
  exact (Option.some.inj read).symm

end Instruction

end ForthJit
