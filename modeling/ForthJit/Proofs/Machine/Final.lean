import ForthJit.Machine.Assembler
import ForthJit.Machine.Placeholder
import ForthJit.Proofs.Outcome

/-!
# Words that stand for nothing else

A word is final if it is no placeholder.  Placeholders are traps, so every other instruction has a
final word, and so has everything that the assembler makes except `brk`.
-/

namespace ForthJit

/-- The word is no placeholder. -/
def Final (w : InstrWord) : Prop := Placeholder.tagOf? w = none

instance (w : InstrWord) : Decidable (Final w) := inferInstanceAs (Decidable (_ = none))

theorem Placeholder.not_final (p : Placeholder) : ¬Final p.word := by
  cases p <;> decide

namespace Instruction

def isTrap : Instruction → Bool
  | trap _ => true
  | _ => false

/-- Any of the high bits tells a word from a trap. -/
theorem final_of_bits {w : InstrWord} (start len : Nat)
    (fixed : BitVec.extractLsb' start len 0xFFE0001F#32 = BitVec.allOnes len)
    (other : w.extractLsb' start len ≠ BitVec.extractLsb' start len 0xD4200000#32) : Final w := by
  unfold Final Placeholder.tagOf?
  rw [if_neg]
  rintro ⟨masked, -⟩
  have bits := congrArg (BitVec.extractLsb' start len) masked
  rw [BitVec.extractLsb'_and, fixed, BitVec.and_allOnes] at bits
  exact other bits

theorem final_of_byte {w : InstrWord} (other : w.extractLsb' 24 8 ≠ 0xD4#8) : Final w :=
  final_of_bits 24 8 rfl other

theorem encode_final {i : Instruction} (other : i.isTrap = false) : Final i.encode := by
  cases i with
  | trap imm => cases other
  | nop | ret => decide
  | branch words | branchLink words =>
    -- The top byte holds bits of the offset here, so only the six bits above it are compared.
    refine final_of_bits 26 6 rfl ?_
    simp (disch := omega) only [encode, BitVec.extractLsb'_append_eq_of_le]
    decide
  | wideMove op | alu op | indexed op | pair op =>
    refine final_of_byte ?_
    simp (disch := omega) only [encode, BitVec.extractLsb'_append_eq_of_le]
    cases op <;> decide
  | _ =>
    refine final_of_byte ?_
    simp (disch := omega) only [encode, BitVec.extractLsb'_append_eq_of_le]
    decide

/-- Assembling an instruction of one form never makes a trap of another. -/
theorem isTrap_of_map {α : Type} {checked : Except EncodeError α} {form : α → Instruction}
    {i : Instruction} (other : ∀ a, (form a).isTrap = false) (ok : checked.map form = .ok i) :
    i.isTrap = false := by
  obtain ⟨a, -, rfl⟩ := except_map_eq_ok.1 ok
  exact other a

end Instruction

end ForthJit
