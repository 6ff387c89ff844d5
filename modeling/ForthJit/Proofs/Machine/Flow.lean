import ForthJit.Definition.Patch
import ForthJit.Memory.CodeHeap
import ForthJit.Proofs.Machine.Decode
import ForthJit.Proofs.Machine.Final

/-!
# Where control goes, and what is written

Of an instruction, the registers it writes and where control goes after it; of any instruction word,
whether it depends on its position and whether it leaves by a register.  The two agree on the words
of instructions.
-/

namespace ForthJit

/-! ## Register sets -/

instance : HasSubset RegSet := ⟨fun s t => ∀ r, s.contains r = true → t.contains r = true⟩

namespace RegSet

variable {s t u : RegSet}

theorem subset_refl (s : RegSet) : s ⊆ s := fun _ member => member

theorem subset_trans (first : s ⊆ t) (second : t ⊆ u) : s ⊆ u :=
  fun r member => second r (first r member)

theorem subset_union_left (s t : RegSet) : s ⊆ s.union t := by
  intro r member
  simp [member]

theorem subset_union_right (s t : RegSet) : t ⊆ s.union t := by
  intro r member
  simp [member]

theorem subset_insert (s : RegSet) (r : Reg) : s ⊆ s.insert r := by
  intro q member
  simp [member]

theorem contains_singleton (r : Reg) : (singleton r).contains r = true := by
  simp [singleton]

end RegSet

/-- The registers that every compiled word takes care of: the data stack pointer, the error register
of the stack convention, the frame pointer, the link register and the stack pointer. -/
def Reg.isReserved (r : Reg) : Bool :=
  r = .dataStack || r = .error || r = .fp || r = .lr || r = .sp

namespace Instruction

/-- The registers that an instruction writes; number 31 is the stack pointer or none. -/
def written : Instruction → List Reg
  | wideMove _ rd _ _ | addImm rd _ _ _ | subImm rd _ _ _ | alu _ rd _ _ | cset rd _ => [rd]
  | load rt _ _ | loadLiteral rt _ => [rt]
  | indexed .loadAfter rt rn _ | indexed .loadBefore rt rn _ => [rt, rn]
  | indexed .storeAfter _ rn _ | indexed .storeBefore _ rn _ => [rn]
  | pair .loadAfter rt rt2 rn _ => [rt, rt2, rn]
  | pair .load rt rt2 _ _ => [rt, rt2]
  | pair .storeBefore _ _ rn _ => [rn]
  | branchLink _ | callReg _ => [.lr]
  | _ => []

/-- How far an instruction may jump. -/
def jump? : Instruction → Option Int
  | branch words => some words.toInt
  | branchIf _ words | branchZero _ words | branchNonzero _ words => some words.toInt
  | _ => none

/-- The instruction means the same wherever it stands, and control goes on after it. -/
def isPlain : Instruction → Bool
  | loadLiteral .. | branch _ | branchLink _ | branchIf .. | branchZero .. | branchNonzero ..
  | callReg _ | jumpReg _ | ret | trap _ => false
  | _ => true

/-- The instruction names its target or its operand by its distance. -/
def isPcRelative : Instruction → Bool
  | loadLiteral .. | branch _ | branchLink _ | branchIf .. | branchZero .. | branchNonzero .. =>
    true
  | _ => false

/-- The target of the instruction is in a register. -/
def isRegisterBranch : Instruction → Bool
  | callReg _ | jumpReg _ | ret => true
  | _ => false

/-- Control may go on with the next instruction, be it after a call. -/
def falls : Instruction → Bool
  | branch _ | jumpReg _ | ret => false
  | _ => true

theorem falls_of_isPlain {i : Instruction} (plain : i.isPlain = true) : i.falls = true := by
  cases i <;> first | rfl | cases plain

theorem isTrap_of_isPlain {i : Instruction} (plain : i.isPlain = true) : i.isTrap = false := by
  cases i <;> first | rfl | cases plain

end Instruction

/-! ## Words of any kind -/

/-- What the word means depends on where it stands: a branch to a label, a load of a literal or the
computation of an address. -/
def isPcRelative (w : InstrWord) : Bool :=
  w.extractLsb' 26 5 == 0x05#5 || w.extractLsb' 25 6 == 0x1A#6 || w.extractLsb' 25 6 == 0x1B#6 ||
    w.extractLsb' 25 7 == 0x2A#7 || (w.extractLsb' 27 3 == 3#3 && w.extractLsb' 24 2 == 0#2) ||
      w.extractLsb' 24 5 == 0x10#5

/-- The word goes to an address in a register. -/
def isRegisterBranch (w : InstrWord) : Bool :=
  w.extractLsb' 26 6 == 0x35#6 && w.extractLsb' 25 1 == 1#1

/-- The word calls the function whose address is in a register. -/
def isRegisterCall (w : InstrWord) : Bool :=
  w.extractLsb' 10 22 == 0x358FC0#22 && w.extractLsb' 0 5 == 0#5

/-- The word returns to the address in a register. -/
def isReturn (w : InstrWord) : Bool :=
  w.extractLsb' 10 22 == 0x3597C0#22 && w.extractLsb' 0 5 == 0#5

/-- Control may go on with the word after `w`, be it after a call. -/
def falls (w : InstrWord) : Bool :=
  !(w.extractLsb' 26 6 == 0x05#6) && (!isRegisterBranch w || isRegisterCall w)

namespace Instruction

/-- Where control goes from an instruction can be read off its word. -/
theorem classes_encode (i : Instruction) : ForthJit.isPcRelative i.encode = i.isPcRelative ∧
    ForthJit.isRegisterBranch i.encode = i.isRegisterBranch ∧
      ForthJit.falls i.encode = i.falls := by
  rcases i with ⟨_ | _ | _⟩ | _ | _ | ⟨_ | _ | _ | _ | _ | _ | _ | _ | _⟩ | _ | _ | _ | _ | _ |
    ⟨_ | _ | _ | _⟩ | _ | ⟨_ | _ | _ | _⟩ | _ | _ | _ | _ | _ | _ | _ | _ | _ | _
  case ret | nop => exact ⟨rfl, rfl, rfl⟩
  all_goals
    simp (disch := omega) only [ForthJit.isPcRelative, ForthJit.falls, ForthJit.isRegisterBranch,
      isRegisterCall, encode, WideMove.opcode, AluOp.opcode, Indexed.opcode, PairOp.opcode,
      BitVec.extractLsb'_append_eq_of_le, BitVec.extractLsb'_append_eq_of_add_le,
      BitVec.ofNat_eq_ofNat]
  all_goals exact ⟨rfl, rfl, rfl⟩

theorem isPcRelative_encode (i : Instruction) : ForthJit.isPcRelative i.encode = i.isPcRelative :=
  (classes_encode i).1

theorem isRegisterBranch_encode (i : Instruction) :
    ForthJit.isRegisterBranch i.encode = i.isRegisterBranch :=
  (classes_encode i).2.1

theorem falls_encode (i : Instruction) : ForthJit.falls i.encode = i.falls := (classes_encode i).2.2

theorem isRegisterCall_encode (rn : Reg) : isRegisterCall (callReg rn).encode = true := by
  simp (disch := omega) only [isRegisterCall, encode, BitVec.extractLsb'_append_eq_of_le,
    BitVec.extractLsb'_append_eq_of_add_le]
  rfl

end Instruction

/-- Control can pass from the word at `i` to the word at `j` without leaving by a return or for a
call; after a call it goes on with the next word. -/
inductive CodeHeap.Flow (h : CodeHeap) (i : Nat) : Nat → Prop
  | next {w : InstrWord} : h.word? i = some w → falls w = true → Flow h i (i + 1)
  | jump {instruction : Instruction} {words : Int} {j : Nat} :
      h.word? i = some instruction.encode → instruction.jump? = some words → (j : Int) = i + words →
      Flow h i j

/-! ## Distances -/

/-- A distance is the difference of the positions, up to the 64 bits that it is kept in. -/
theorem distance_eq_bmod (source target : Nat) :
    distance source target = ((target : Int) - source).bmod (2 ^ 64) := by
  rw [distance, BitVec.toInt_sub, BitVec.toInt_ofNat', BitVec.toInt_ofNat', Int.sub_bmod_bmod,
    Int.bmod_sub_bmod]

/-- Positions that a machine can address are at their difference. -/
theorem distance_eq {source target : Nat} (low : source < 2 ^ 63) (high : target < 2 ^ 63) :
    distance source target = (target : Int) - source := by
  rw [distance_eq_bmod]
  exact Int.bmod_eq_of_le (show -2 ^ 63 ≤ (target : Int) - source by omega)
    (show (target : Int) - source < 2 ^ 63 by omega)

theorem Field.signed_ok {field : String} {width : Nat} {value : Int} {v : BitVec width}
    (positive : 0 < width) (ok : Field.signed field width value = .ok v) : v.toInt = value := by
  unfold Field.signed at ok
  dsimp only at ok
  split at ok
  · next range =>
    cases ok
    rw [Nat.one_shiftLeft] at range
    push_cast at range
    exact BitVec.toInt_ofInt_eq_self positive range.1 range.2
  · cases ok

namespace Asm

variable {words : Int} {i : Instruction} {reg : Reg}

theorem b_ok (ok : b words = .ok i) : ∃ v, i = .branch v ∧ v.toInt = words := by
  obtain ⟨v, checked, rfl⟩ := except_map_eq_ok.1 ok
  exact ⟨v, rfl, Field.signed_ok (by decide) checked⟩

theorem bl_ok (ok : bl words = .ok i) : ∃ v, i = .branchLink v ∧ v.toInt = words := by
  obtain ⟨v, checked, rfl⟩ := except_map_eq_ok.1 ok
  exact ⟨v, rfl, Field.signed_ok (by decide) checked⟩

theorem cbz_ok (ok : cbz reg words = .ok i) : ∃ v, i = .branchZero reg v ∧ v.toInt = words := by
  obtain ⟨v, checked, rfl⟩ := except_map_eq_ok.1 ok
  exact ⟨v, rfl, Field.signed_ok (by decide) checked⟩

theorem cbnz_ok (ok : cbnz reg words = .ok i) :
    ∃ v, i = .branchNonzero reg v ∧ v.toInt = words := by
  obtain ⟨v, checked, rfl⟩ := except_map_eq_ok.1 ok
  exact ⟨v, rfl, Field.signed_ok (by decide) checked⟩

theorem ldrLiteral_ok (ok : ldrLiteral reg words = .ok i) :
    ∃ v, i = .loadLiteral reg v ∧ v.toInt = words := by
  obtain ⟨v, checked, rfl⟩ := except_map_eq_ok.1 ok
  exact ⟨v, rfl, Field.signed_ok (by decide) checked⟩

end Asm

end ForthJit
