import ForthJit.Proofs.Machine.Execution

/-!
# What instructions compute

A plain instruction changes no register beyond those that it is said to write.
-/

namespace ForthJit

/-! ## Registers -/

namespace Machine

variable {m m' : Machine} {r q : Reg} {value : Cell}

theorem read_congr (same : m'.regs q = m.regs q) : m'.read q = m.read q := by
  unfold read
  rw [same]

theorem regs_write_of_ne (other : q ≠ r) : (m.write r value).regs q = m.regs q := by
  unfold write
  split
  · rfl
  · exact m.regs_set_of_ne value other

theorem read_set_of_ne (other : q ≠ r) : (m.set r value).read q = m.read q :=
  read_congr (m.regs_set_of_ne value other)

@[simp] theorem memory_write : (m.write r value).memory = m.memory := by
  unfold write
  split <;> rfl

end Machine

namespace Instruction

theorem apply_mov {m : Machine} {rd rm : Reg} :
    (Asm.mov rd rm).apply m = m.write rd (m.read rm) := by
  show m.write rd (m.read .xzr ||| m.read rm) = _
  rw [Machine.read_xzr, BitVec.zero_or]

/-- What a plain instruction is not said to write it leaves. -/
theorem apply_regs {m : Machine} {i : Instruction} {r : Reg} (other : r ∉ i.written) :
    (i.apply m).regs r = m.regs r := by
  have one : ∀ {q : Reg} {m : Machine} {value : Cell}, r ∉ [q] →
      (m.write q value).regs r = m.regs r := fun other =>
    Machine.regs_write_of_ne (List.ne_of_not_mem_cons other)
  have direct : ∀ {q : Reg} {m : Machine} {value : Cell}, r ∉ [q] →
      (m.set q value).regs r = m.regs r := fun {_ m value} other =>
    m.regs_set_of_ne value (List.ne_of_not_mem_cons other)
  cases i with
  | wideMove op rd imm hw | alu op rd rn rm | cset rd cond | load rt rn imm => exact one other
  | addImm rd rn imm shifted | subImm rd rn imm shifted => exact direct other
  | indexed op rt rn imm =>
    cases op with
    | loadAfter | loadBefore =>
      simp only [written, List.mem_cons, not_or] at other
      exact (Machine.regs_write_of_ne other.1).trans (direct (by simpa using other.2))
    | storeAfter | storeBefore => exact direct other
  | pair op rt rt2 rn imm =>
    cases op with
    | loadAfter =>
      simp only [written, List.mem_cons, not_or] at other
      exact (Machine.regs_write_of_ne other.2.1).trans
        ((Machine.regs_write_of_ne other.1).trans (direct (by simpa using other.2.2)))
    | load =>
      simp only [written, List.mem_cons, not_or] at other
      exact (Machine.regs_write_of_ne other.2.1).trans (Machine.regs_write_of_ne other.1)
    | storeBefore => exact direct other
    | store => rfl
  | _ => rfl

end Instruction

end ForthJit
