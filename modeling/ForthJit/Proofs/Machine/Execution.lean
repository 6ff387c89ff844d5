import ForthJit.Proofs.Machine.Flow
import Mathlib

/-!
# What plain instructions do

A machine has registers, flags and a memory of bytes.  `Instruction.apply` is what a plain
instruction, one that goes on to the next, does to them.
-/

namespace ForthJit

/-! ## Memory -/

/-- Memory, by the address of each byte. -/
abbrev Memory := Cell → BitVec 8

namespace Memory

/-- The bytes from `a` on, least significant first. -/
def bytes (memory : Memory) (a : Cell) : (count : Nat) → BitVec (8 * count)
  | 0 => 0#0
  | count + 1 => memory.bytes (a + 1) count ++ memory a

/-- The cell at `a`. -/
def load (memory : Memory) (a : Cell) : Cell := memory.bytes a 8

/-- The memory with `value` in the cell at `a`. -/
def store (memory : Memory) (a value : Cell) : Memory := fun b =>
  if (b - a).toNat < 8 then value.extractLsb' (8 * (b - a).toNat) 8 else memory b

variable {memory memory' : Memory} {a b value : Cell}

theorem add_succ (a : Cell) (n : Nat) :
    a + BitVec.ofNat 64 (n + 1) = a + 1 + BitVec.ofNat 64 n := by
  rw [Nat.add_comm, BitVec.ofNat_add, ← BitVec.add_assoc]
  rfl

theorem bytes_congr {count : Nat}
    (same : ∀ n < count, memory' (a + BitVec.ofNat 64 n) = memory (a + BitVec.ofNat 64 n)) :
    memory'.bytes a count = memory.bytes a count := by
  induction count generalizing a with
  | zero => rfl
  | succ count ih =>
    have first := same 0 (Nat.succ_pos count)
    rw [BitVec.add_zero] at first
    rw [bytes, bytes, first, ih fun n bound => ?_]
    rw [← add_succ]
    exact same (n + 1) (Nat.succ_lt_succ bound)

/-- A number is made of its bytes. -/
theorem bytes_eq {count : Nat} {v : BitVec (8 * count)}
    (each : ∀ n < count, memory (a + BitVec.ofNat 64 n) = v.extractLsb' (8 * n) 8) :
    memory.bytes a count = v := by
  induction count generalizing a with
  | zero => exact (BitVec.eq_nil _).trans (BitVec.eq_nil _).symm
  | succ count ih =>
    have first := each 0 (Nat.succ_pos count)
    rw [BitVec.add_zero] at first
    have rest : memory.bytes (a + 1) count = v.extractLsb' 8 (8 * count) := by
      apply ih
      intro n bound
      rw [← add_succ, each (n + 1) (Nat.succ_lt_succ bound)]
      ext i inside
      simp only [BitVec.getElem_extractLsb', BitVec.getLsbD_extractLsb',
        show 8 * n + i < 8 * count by omega, decide_true, Bool.true_and]
      congr 1
      omega
    rw [bytes, rest, first]
    ext i inside
    simp only [BitVec.getElem_append, BitVec.getElem_extractLsb']
    split
    · rw [Nat.mul_zero, Nat.zero_add, BitVec.getLsbD_eq_getElem]
    · rw [← BitVec.getLsbD_eq_getElem inside]
      congr 1
      omega

/-- What was stored is loaded again. -/
@[simp] theorem load_store (memory : Memory) (a value : Cell) :
    (memory.store a value).load a = value := by
  refine bytes_eq fun n bound => ?_
  have offset : (a + BitVec.ofNat 64 n - a).toNat = n := by
    rw [BitVec.add_comm, BitVec.add_sub_cancel, BitVec.toNat_ofNat]
    omega
  rw [store, offset, if_pos bound]

/-- A byte outside the cell that is written stays. -/
theorem store_of_outside (outside : 8 ≤ (b - a).toNat) : memory.store a value b = memory b :=
  if_neg (Nat.not_lt.2 outside)

/-- The eight bytes of a cell that lies apart stay. -/
theorem load_store_of_apart (apart : ∀ n < 8, 8 ≤ (b + BitVec.ofNat 64 n - a).toNat) :
    (memory.store a value).load b = memory.load b :=
  bytes_congr fun n bound => store_of_outside (apart n bound)

end Memory

/-! ## Machines -/

/-- The condition flags: negative, zero, carry and overflow. -/
structure Flags where
  n : Bool
  z : Bool
  c : Bool
  v : Bool

/-- The flags that comparing `a` with `b` sets, those of `a - b`. -/
def Flags.compare (a b : Cell) : Flags where
  n := (a - b).msb
  z := a - b == 0#64
  c := b ≤ a
  v := (a - b).toInt ≠ a.toInt - b.toInt

def Cond.holds (flags : Flags) : Cond → Bool
  | eq => flags.z
  | ne => !flags.z
  | hs => flags.c
  | lo => !flags.c
  | mi => flags.n
  | pl => !flags.n
  | vs => flags.v
  | vc => !flags.v
  | hi => flags.c && !flags.z
  | ls => !flags.c || flags.z
  | ge => flags.n == flags.v
  | lt => flags.n != flags.v
  | gt => !flags.z && flags.n == flags.v
  | le => flags.z || flags.n != flags.v
  | al => true

/-- The result of a three-register operation.  Shifts count modulo 64, and division by zero gives
zero. -/
def AluOp.apply (a b : Cell) : AluOp → Cell
  | add => a + b
  | sub => a - b
  | mul => a * b
  | sdiv => a.sdiv b
  | and => a &&& b
  | orr => a ||| b
  | eor => a ^^^ b
  | lslv => a <<< (b.toNat % 64)
  | asrv => a.sshiftRight (b.toNat % 64)

/-- What a move of the chunk `imm` makes of `old`. -/
def WideMove.apply (old : Cell) (imm : BitVec 16) (hw : BitVec 2) : WideMove → Cell
  | zero => imm.setWidth 64 <<< (16 * hw.toNat)
  | not => ~~~(imm.setWidth 64 <<< (16 * hw.toNat))
  | keep => (old &&& ~~~(0xFFFF#64 <<< (16 * hw.toNat))) ||| (imm.setWidth 64 <<< (16 * hw.toNat))

/-- What a machine has besides its code. -/
structure Machine where
  /-- Register number 31 is the stack pointer. -/
  regs : Reg → Cell
  flags : Flags
  memory : Memory

namespace Machine

/-- `r` in a data position, where number 31 is zero. -/
def read (m : Machine) (r : Reg) : Cell := if r = .xzr then 0#64 else m.regs r

def set (m : Machine) (r : Reg) (value : Cell) : Machine :=
  { m with regs := Function.update m.regs r value }

/-- Write `r` in a data position, where number 31 is nothing. -/
def write (m : Machine) (r : Reg) (value : Cell) : Machine :=
  if r = .xzr then m else m.set r value

def store (m : Machine) (a value : Cell) : Machine :=
  { m with memory := m.memory.store a value }

variable (m : Machine) {r q : Reg} (value : Cell)

@[simp] theorem regs_set (r : Reg) : (m.set r value).regs r = value := Function.update_self ..

@[simp] theorem regs_set_of_ne (other : q ≠ r) : (m.set r value).regs q = m.regs q :=
  Function.update_of_ne other ..

@[simp] theorem memory_set (r : Reg) : (m.set r value).memory = m.memory := rfl

theorem read_of_ne (other : r ≠ .xzr) : m.read r = m.regs r := if_neg other

theorem write_of_ne (other : r ≠ .xzr) : m.write r value = m.set r value := if_neg other

@[simp] theorem read_xzr : m.read .xzr = 0#64 := if_pos rfl

end Machine

/-! ## Instructions -/

namespace Instruction

/-- The immediate of an addition to an address. -/
def amount (imm : BitVec 12) (shifted : Bool) : Cell :=
  if shifted then imm.setWidth 64 <<< 12 else imm.setWidth 64

/-- What a plain instruction does. -/
def apply (m : Machine) : Instruction → Machine
  | wideMove op rd imm hw => m.write rd (op.apply (m.read rd) imm hw)
  | addImm rd rn imm shifted => m.set rd (m.regs rn + amount imm shifted)
  | subImm rd rn imm shifted => m.set rd (m.regs rn - amount imm shifted)
  | alu op rd rn rm => m.write rd (op.apply (m.read rn) (m.read rm))
  | cmp rn rm => { m with flags := .compare (m.read rn) (m.read rm) }
  | cmpImm rn imm => { m with flags := .compare (m.regs rn) (imm.setWidth 64) }
  | cset rd cond => m.write rd (if cond.holds m.flags then 1#64 else 0#64)
  | load rt rn imm => m.write rt (m.memory.load (m.regs rn + 8 * imm.setWidth 64))
  | store rt rn imm => m.store (m.regs rn + 8 * imm.setWidth 64) (m.read rt)
  | indexed op rt rn imm =>
    let moved := m.regs rn + imm.signExtend 64
    match op with
    | .loadAfter => (m.set rn moved).write rt (m.memory.load (m.regs rn))
    | .loadBefore => (m.set rn moved).write rt (m.memory.load moved)
    | .storeAfter => (m.store (m.regs rn) (m.read rt)).set rn moved
    | .storeBefore => (m.store moved (m.read rt)).set rn moved
  | pair op rt rt2 rn imm =>
    let moved := m.regs rn + 8 * imm.signExtend 64
    match op with
    | .storeBefore => ((m.store moved (m.read rt)).store (moved + 8) (m.read rt2)).set rn moved
    | .store => (m.store moved (m.read rt)).store (moved + 8) (m.read rt2)
    | .loadAfter => ((m.set rn moved).write rt (m.memory.load (m.regs rn))).write rt2
        (m.memory.load (m.regs rn + 8))
    | .load => (m.write rt (m.memory.load moved)).write rt2 (m.memory.load (moved + 8))
  | _ => m

/-- What plain instructions do one after the other. -/
def applyAll (m : Machine) (is : List Instruction) : Machine := is.foldl apply m

end Instruction

end ForthJit
