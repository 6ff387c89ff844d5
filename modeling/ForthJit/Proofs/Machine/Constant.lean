import ForthJit.Machine.Constant
import ForthJit.Proofs.Machine.Execution

/-!
# Constants are built, and with as few moves as possible

A constant is followed chunk by chunk.  A move sets one chunk of a register, and a first move sets
the others to zeros or to ones.  So after `n` moves at most `n` chunks differ from zeros, or at most
`n` from ones, and no fewer moves build a constant than the chunks that differ from the better
filling.
-/

namespace ForthJit.Constant

variable {rd : Reg} {value old : Cell} {i : Nat}

/-! ## Chunks -/

theorem eq_of_chunks {a b : Cell} (same : ∀ i < 4, chunk a i = chunk b i) : a = b := by
  apply BitVec.eq_of_getLsbD_eq
  intro k inside
  have bit := congrArg (BitVec.getLsbD · (k % 16)) (same (k / 16) (by omega))
  simpa [chunk, Nat.mod_lt, Nat.div_add_mod] using bit

/-- A chunk that was moved into its place. -/
theorem chunk_shift {imm : BitVec 16} {h : Nat} (inside : i < 4) :
    chunk (imm.setWidth 64 <<< (16 * h)) i = if i = h then imm else 0#16 := by
  apply BitVec.eq_of_getLsbD_eq
  intro k small
  have low : 16 * i + k < 64 := by omega
  split
  · next same =>
    subst same
    simp [chunk, small, low]
  · next other =>
    simp only [chunk, BitVec.getLsbD_extractLsb', BitVec.getLsbD_shiftLeft, BitVec.getLsbD_setWidth,
      BitVec.getLsbD_zero, small, low, decide_true, Bool.true_and]
    by_cases below : 16 * i + k < 16 * h
    · simp [below]
    · rw [BitVec.getLsbD_of_ge imm _ (by omega), Bool.and_false, Bool.and_false]

theorem chunk_not (value : Cell) (inside : i < 4) : chunk (~~~value) i = ~~~chunk value i := by
  apply BitVec.eq_of_getLsbD_eq
  intro k small
  simp [chunk, small, show 16 * i + k < 64 by omega]

/-- A move sets its own chunk, and the others by its kind. -/
theorem chunk_apply (op : WideMove) (old : Cell) (imm : BitVec 16) (hw : BitVec 2)
    (inside : i < 4) :
    chunk (op.apply old imm hw) i =
      if i = hw.toNat then (match op with | .not => ~~~imm | _ => imm)
      else match op with | .zero => 0#16 | .not => 0xFFFF#16 | .keep => chunk old i := by
  cases op with
  | zero => exact chunk_shift inside
  | not =>
    rw [WideMove.apply, chunk_not _ inside, chunk_shift inside]
    split <;> rfl
  | keep =>
    have mask : chunk (~~~(0xFFFF#64 <<< (16 * hw.toNat))) i =
        if i = hw.toNat then 0#16 else BitVec.allOnes 16 := by
      rw [chunk_not _ inside, show 0xFFFF#64 = (0xFFFF#16).setWidth 64 from rfl, chunk_shift inside]
      split <;> rfl
    have parts : chunk (WideMove.keep.apply old imm hw) i =
        (chunk old i &&& chunk (~~~(0xFFFF#64 <<< (16 * hw.toNat))) i) |||
          chunk (imm.setWidth 64 <<< (16 * hw.toNat)) i := by
      simp [WideMove.apply, chunk, BitVec.extractLsb'_or, BitVec.extractLsb'_and]
    rw [parts, mask, chunk_shift inside]
    split
    · rw [BitVec.and_zero, BitVec.zero_or]
    · rw [BitVec.and_allOnes, BitVec.or_zero]

theorem mem_differing {filling : BitVec 16} :
    i ∈ differing value filling ↔ i < 4 ∧ chunk value i ≠ filling := by
  simp [differing]

/-- If all but one of the chunks that differ are in `ids`, there is at most one more of them. -/
theorem length_differing (h : Nat) {filling : BitVec 16} {ids : List Nat}
    (others : ∀ i < 4, i ≠ h → chunk value i ≠ filling → i ∈ ids) {n : Nat} (few : ids.length ≤ n) :
    (differing value filling).length ≤ n + 1 := by
  have listed : differing value filling ⊆ h :: ids := fun i member => ?_
  · exact ((List.nodup_range.filter _).subperm listed).length_le.trans (Nat.succ_le_succ few)
  obtain ⟨inside, differs⟩ := mem_differing.1 member
  by_cases own : i = h
  · exact own ▸ List.mem_cons_self
  · exact List.mem_cons_of_mem _ (others i inside own differs)

/-! ## Moves -/

/-- A move of a chunk, into whatever register. -/
structure Move where
  op : WideMove
  imm : BitVec 16
  hw : BitVec 2

namespace Move

def instruction (rd : Reg) (m : Move) : Instruction := .wideMove m.op rd m.imm m.hw

/-- What moves one after the other make of the content of a register. -/
def run (old : Cell) (ms : List Move) : Cell :=
  ms.foldl (fun old m => m.op.apply old m.imm m.hw) old

/-- A machine that executes moves into `rd` changes nothing but `rd`. -/
theorem applyAll_instruction (m : Machine) (ms : List Move) :
    Instruction.applyAll m (ms.map (instruction rd)) = m.write rd (run (m.read rd) ms) := by
  by_cases none : rd = .xzr
  · subst none
    induction ms with
    | nil => rfl
    | cons first ms ih => exact ih
  · have write : ∀ (m : Machine) (value : Cell), m.write rd value = m.set rd value :=
      fun m value => m.write_of_ne value none
    simp only [write, Machine.read_of_ne _ none]
    induction ms generalizing m with
    | nil => simp [Instruction.applyAll, run, Machine.set]
    | cons first ms ih =>
      have applied : (first.instruction rd).apply m =
          m.set rd (first.op.apply (m.regs rd) first.imm first.hw) := by
        rw [← write, ← m.read_of_ne none]
        rfl
      rw [List.map_cons, Instruction.applyAll, List.foldl_cons, applied]
      refine (ih _).trans ?_
      simp [Machine.set, run]

/-- A move lets one more chunk differ from the filling, or fills anew. -/
theorem differing_apply (m : Move) (old : Cell) {n : Nat}
    (few : m.op = .keep → ∃ filling ∈ [0#16, 0xFFFF#16], (differing old filling).length ≤ n) :
    ∃ filling ∈ [0#16, 0xFFFF#16],
      (differing (m.op.apply old m.imm m.hw) filling).length ≤ n + 1 := by
  have others : ∀ i < 4, i ≠ m.hw.toNat → chunk (m.op.apply old m.imm m.hw) i =
      match m.op with | .zero => 0#16 | .not => 0xFFFF#16 | .keep => chunk old i :=
    fun i inside other => (chunk_apply _ _ _ _ inside).trans (if_neg other)
  have anew : ∀ {filling}, (∀ i < 4, i ≠ m.hw.toNat →
      chunk (m.op.apply old m.imm m.hw) i = filling) →
      (differing (m.op.apply old m.imm m.hw) filling).length ≤ n + 1 :=
    fun fills => length_differing m.hw.toNat
      (fun i inside other differs => absurd (fills i inside other) differs)
      (List.length_nil ▸ n.zero_le)
  cases kind : m.op with
  | zero =>
    rw [kind] at others anew
    exact ⟨0, by decide, anew others⟩
  | not =>
    rw [kind] at others anew
    exact ⟨0xFFFF, by decide, anew others⟩
  | keep =>
    rw [kind] at others
    obtain ⟨filling, isFilling, few⟩ := few kind
    refine ⟨filling, isFilling, length_differing m.hw.toNat (fun i inside other differs => ?_) few⟩
    rw [others i inside other] at differs
    exact mem_differing.2 ⟨inside, differs⟩

/-- Moves let as many chunks differ from a filling as there are moves since. -/
theorem differing_run (ms : List Move) {n : Nat}
    (few : ∃ filling ∈ [0#16, 0xFFFF#16], (differing old filling).length ≤ n) :
    ∃ filling ∈ [0#16, 0xFFFF#16], (differing (run old ms) filling).length ≤ n + ms.length := by
  induction ms generalizing old n with
  | nil => exact few
  | cons m ms ih =>
    obtain ⟨filling, isFilling, bound⟩ := ih (m.differing_apply old fun _ => few)
    refine ⟨filling, isFilling, bound.trans ?_⟩
    rw [List.length_cons]
    omega

end Move

/-! ## The moves that are chosen -/

/-- The move that sets chunk `i` of `value` and keeps the others. -/
def keep (value : Cell) (i : Nat) : Move := ⟨.keep, chunk value i, BitVec.ofNat 2 i⟩

/-- The moves to `value`, the first of them and the others. -/
def plan (value : Cell) (inverted : Bool) : Move × List Move :=
  match differing value (if inverted then 0xFFFF else 0) with
  | [] => (⟨if inverted then .not else .zero, 0, 0⟩, [])
  | i :: rest => (⟨if inverted then .not else .zero,
      if inverted then ~~~chunk value i else chunk value i, BitVec.ofNat 2 i⟩,
        rest.map (keep value))

theorem moves_eq (rd : Reg) (value : Cell) : moves rd value =
    ((plan value (isInverted value)).1 :: (plan value (isInverted value)).2).map
      (Move.instruction rd) := by
  unfold moves plan
  generalize isInverted value = inverted
  dsimp only
  generalize differing value (if inverted = true then 0xFFFF else 0) = ids
  cases inverted <;> cases ids <;> simp [Move.instruction, keep]

theorem op_plan (value : Cell) (inverted : Bool) :
    (plan value inverted).1.op ≠ .keep ∧ ∀ m ∈ (plan value inverted).2, m.op = .keep := by
  unfold plan
  split <;> cases inverted <;> simp [keep]

/-- The chunks in `ids` are set, and the others kept. -/
theorem chunk_run_keep {ids : List Nat} (small : ∀ k ∈ ids, k < 4) (inside : i < 4) :
    chunk (Move.run old (ids.map (keep value))) i =
      if i ∈ ids then chunk value i else chunk old i := by
  induction ids generalizing old with
  | nil => rfl
  | cons k ids ih =>
    have position : (BitVec.ofNat 2 k).toNat = k := Nat.mod_eq_of_lt (small k List.mem_cons_self)
    rw [List.map_cons, Move.run, List.foldl_cons]
    refine (ih fun k member => small k (List.mem_cons_of_mem _ member)).trans ?_
    rw [keep, chunk_apply _ _ _ _ inside, position]
    by_cases later : i ∈ ids <;> by_cases now : i = k <;> simp [later, now]

/-- The moves make `value` of anything: the first fills the register and sets one chunk that
differs, the others set the rest. -/
theorem run_plan (value old : Cell) (inverted : Bool) :
    Move.run old ((plan value inverted).1 :: (plan value inverted).2) = value := by
  have fills : ∀ k < 4, chunk ((if inverted then .not else .zero : WideMove).apply old 0 0) k =
      if inverted then 0xFFFF else 0 := by
    intro k inside
    cases inverted <;> exact (chunk_apply _ _ _ _ inside).trans (ite_self _)
  have sets : ∀ i < 4, ∀ k < 4, chunk ((if inverted then .not else .zero : WideMove).apply old
      (if inverted then ~~~chunk value i else chunk value i) (BitVec.ofNat 2 i)) k =
      if k = i then chunk value i else if inverted then 0xFFFF else 0 := by
    intro i small k inside
    have position : (BitVec.ofNat 2 i).toNat = i := Nat.mod_eq_of_lt small
    cases inverted <;> rw [chunk_apply _ _ _ _ inside, position] <;> simp
  have listed : ∀ k, k ∈ differing value (if inverted then 0xFFFF else 0) ↔ _ :=
    fun k => mem_differing
  unfold plan
  generalize (if inverted then 0xFFFF#16 else 0) = filling at *
  cases differ : differing value filling with
  | nil =>
    refine eq_of_chunks fun k inside => (fills k inside).trans ?_
    by_contra differs
    rw [differ] at listed
    exact List.not_mem_nil ((listed k).2 ⟨inside, Ne.symm differs⟩)
  | cons i rest =>
    rw [differ] at listed
    have small : ∀ k ∈ i :: rest, k < 4 := fun k member => ((listed k).1 member).1
    refine eq_of_chunks fun k inside => ?_
    refine (chunk_run_keep (fun k member => small k (List.mem_cons_of_mem _ member)) inside).trans
      ?_
    by_cases later : k ∈ rest
    · rw [if_pos later]
    · rw [if_neg later, sets i (small i List.mem_cons_self) k inside]
      split
      · next same => rw [same]
      · next other =>
        by_contra differs
        have member := (listed k).2 ⟨inside, Ne.symm differs⟩
        simp [other, later] at member

theorem length_plan (value : Cell) :
    (plan value (isInverted value)).2.length + 1 = length value := by
  have least : (differing value (if isInverted value then 0xFFFF else 0)).length =
      min (differing value 0).length (differing value 0xFFFF).length := by
    cases inverted : isInverted value with
    | false =>
      have := of_decide_eq_false inverted
      simp only [Bool.false_eq_true, if_false]
      omega
    | true =>
      have := of_decide_eq_true inverted
      simp only [if_true]
      omega
  unfold length plan
  rw [← least]
  generalize differing value (if isInverted value = true then 0xFFFF else 0) = ids
  cases ids <;> simp

/-- The moves are refused only if there are more than `limit`.  Otherwise they are as many as
announced, one that fills `rd` and others that keep its other chunks, and they put `value` in `rd`
and change nothing else.  No shorter sequence of moves into `rd` that begins with one that fills
makes `value`. -/
theorem moves_minimal (rd : Reg) (value : Cell) (limit : Nat) :
    (moves? rd value limit = none ↔ limit < length value) ∧
    (∀ is, moves? rd value limit = some is →
      is.length = length value ∧
      (∃ first rest, is = (first :: rest).map (Move.instruction rd) ∧ first.op ≠ .keep ∧
        (∀ m ∈ rest, m.op = .keep) ∧ ∀ old, Move.run old (first :: rest) = value) ∧
      (∀ i ∈ is, i.written = [rd]) ∧
      ∀ m : Machine, Instruction.applyAll m is = m.write rd value) ∧
    ∀ first rest, first.op ≠ .keep →
      (∀ m : Machine, Instruction.applyAll m ((first :: rest).map (Move.instruction rd)) =
        m.write rd (Move.run (m.read rd) (first :: rest))) ∧
      ∀ old, Move.run old (first :: rest) = value → length value ≤ (first :: rest).length := by
  refine ⟨?_, fun is chosen => ?_, fun first rest fills =>
    ⟨fun m => Move.applyAll_instruction m _, ?_⟩⟩
  · unfold moves?
    split <;> simp <;> omega
  · unfold moves? at chosen
    split at chosen
    · obtain rfl := Option.some.inj chosen
      obtain ⟨fills, keeps⟩ := op_plan value (isInverted value)
      rw [moves_eq]
      refine ⟨by simp [length_plan], ⟨_, _, rfl, fills, keeps, fun old => run_plan ..⟩, ?_,
        fun m => ?_⟩
      · intro i member
        obtain ⟨m, -, rfl⟩ := List.mem_map.1 member
        rfl
      · rw [Move.applyAll_instruction, run_plan]
    · cases chosen
  · rintro old rfl
    obtain ⟨filling, isFilling, few⟩ := Move.differing_run rest
      (first.differing_apply old (n := 0) fun keeps => absurd keeps fills)
    have least : min (differing (Move.run old (first :: rest)) 0).length
        (differing (Move.run old (first :: rest)) 0xFFFF).length ≤ 1 + rest.length := by
      rcases List.mem_pair.1 isFilling with rfl | rfl
      · exact (Nat.min_le_left ..).trans few
      · exact (Nat.min_le_right ..).trans few
    rw [length, List.length_cons]
    omega

end ForthJit.Constant
