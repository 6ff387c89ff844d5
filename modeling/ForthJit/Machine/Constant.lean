import ForthJit.Machine.Instruction

/-!
# Constants in registers

A 64-bit constant is built from its four 16-bit chunks: one move that fills the other chunks with
zeros or with ones, then one `keep` move for each further chunk that differs from the filling.
-/

namespace ForthJit.Constant

/-- Chunk `i` of `value`, counted from the least significant. -/
def chunk (value : Cell) (i : Nat) : BitVec 16 := value.extractLsb' (16 * i) 16

/-- The positions of the chunks that differ from `filling`, ascending. -/
def differing (value : Cell) (filling : BitVec 16) : List Nat :=
  (List.range 4).filter fun i => chunk value i ≠ filling

/-- Number of instructions that build `value`. -/
def length (value : Cell) : Nat :=
  max 1 (min (differing value 0).length (differing value 0xFFFF).length)

/-- Whether filling with ones leaves fewer chunks to write than filling with zeros. -/
def isInverted (value : Cell) : Bool :=
  (differing value 0xFFFF).length < (differing value 0).length

/-- The moves that put `value` in `rd`. -/
def moves (rd : Reg) (value : Cell) : List Instruction :=
  let inverted := isInverted value
  let first (i : Nat) : Instruction :=
    if inverted then .wideMove .not rd (~~~chunk value i) (BitVec.ofNat 2 i)
    else .wideMove .zero rd (chunk value i) (BitVec.ofNat 2 i)
  let further (i : Nat) : Instruction := .wideMove .keep rd (chunk value i) (BitVec.ofNat 2 i)
  match differing value (if inverted then 0xFFFF else 0) with
  | [] => [.wideMove (if inverted then .not else .zero) rd 0 0]
  | i :: rest => first i :: rest.map further

/-- The moves that put `value` in `rd`, unless there are more than `limit` of them. -/
def moves? (rd : Reg) (value : Cell) (limit : Nat) : Option (List Instruction) :=
  if length value ≤ limit then some (moves rd value) else none

/-- All of them are moves into `rd`. -/
theorem mem_moves? {rd : Reg} {value : Cell} {limit : Nat} {is : List Instruction} {i : Instruction}
    (chosen : moves? rd value limit = some is) (member : i ∈ is) :
    ∃ op imm hw, i = .wideMove op rd imm hw := by
  unfold moves? at chosen
  split at chosen
  · obtain rfl := Option.some.inj chosen
    unfold moves at member
    dsimp only at member
    split at member
    · exact ⟨_, _, _, List.mem_singleton.1 member⟩
    · rcases List.mem_cons.1 member with rfl | later
      · split <;> exact ⟨_, _, _, rfl⟩
      · obtain ⟨_, -, rfl⟩ := List.mem_map.1 later
        exact ⟨_, _, _, rfl⟩
  · cases chosen

end ForthJit.Constant
