/-!
# Machine words

Instruction words are 32 bits wide and data cells 64.  `littleEndian` is the byte image of a
number in memory, and `ofLittleEndian` reads such an image back.
-/

namespace ForthJit

/-- One 32-bit instruction word. -/
abbrev InstrWord := BitVec 32

/-- One 64-bit value: a register, a literal, or a cell of the data stack. -/
abbrev Cell := BitVec 64

/-- The `count` low bytes of `n`, least significant first. -/
def littleEndian : (count : Nat) → (n : Nat) → List UInt8
  | 0, _ => []
  | count + 1, n => UInt8.ofNat (n % 256) :: littleEndian count (n / 256)

/-- The number whose bytes are `bytes`, least significant first. -/
def ofLittleEndian : List UInt8 → Nat
  | [] => 0
  | b :: bs => b.toNat + 256 * ofLittleEndian bs

@[simp] theorem length_littleEndian (count n : Nat) : (littleEndian count n).length = count := by
  induction count generalizing n with
  | zero => rfl
  | succ count ih => simp [littleEndian, ih]

end ForthJit
