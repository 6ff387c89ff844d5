import ForthJit.Proofs.Definition.Resolution
import ForthJit.Proofs.Machine.Effect

/-!
# Where locals live

When a definition ends, each local whose writes were confirmed gets a home of its own, a free
register or a slot of the frame.  `Locals.Housed` says what the reserved reads and writes of each
local become, and the rest what running them does: a write puts a value at one home and leaves all
others alone.
-/

namespace ForthJit

variable {n : Nat} {i : Instruction}

/-! ## Offsets of slots -/

theorem Asm.cellOffset_ok {field : String} {imm : BitVec 12}
    (ok : cellOffset field (8 * n) = .ok imm) :
    imm.setWidth 64 = BitVec.ofNat 64 n := by
  obtain ⟨offset, scaled, checked⟩ := except_bind_eq_ok.1 ok
  unfold Field.scaled at scaled
  split at scaled
  · cases scaled
    rw [Int.mul_tdiv_cancel_left _ (by decide)] at checked
    unfold Field.unsigned at checked
    split at checked
    · next small =>
      cases checked
      rw [BitVec.ofInt_natCast] at small ⊢
      apply BitVec.eq_of_toNat_eq
      simp only [BitVec.toNat_setWidth, BitVec.toNat_ofNat] at small ⊢
      omega
    · cases checked
  · cases scaled

theorem Asm.str_ok {rt rn : Reg} (ok : str rt rn (8 * n) = .ok i) :
    ∃ imm, i = .store rt rn imm ∧ imm.setWidth 64 = BitVec.ofNat 64 n := by
  obtain ⟨imm, offset, rfl⟩ := except_map_eq_ok.1 ok
  exact ⟨imm, rfl, cellOffset_ok offset⟩

theorem Asm.ldr_ok {rt rn : Reg} (ok : ldr rt rn (8 * n) = .ok i) :
    ∃ imm, i = .load rt rn imm ∧ imm.setWidth 64 = BitVec.ofNat 64 n := by
  obtain ⟨imm, offset, rfl⟩ := except_map_eq_ok.1 ok
  exact ⟨imm, rfl, cellOffset_ok offset⟩

/-- If the slot with the largest offset but one more could be encoded, it is that one or a lower
one. -/
theorem Asm.lt_of_encoded {imm : BitVec 12} (offset : imm.setWidth 64 = BitVec.ofNat 64 n)
    (few : n ≤ 4096) : n < 4096 := by
  have same := congrArg BitVec.toNat offset
  have bound := imm.isLt
  rw [BitVec.toNat_setWidth, BitVec.toNat_ofNat] at same
  omega

/-! ## Choosing homes -/

namespace Locals

/-- The home of local `k`. -/
def Resolution.home? (r : Resolution) (k : Nat) : Option Home := r.homeOf[k]?.bind (·.2)

/-- What becomes of the reads and writes of `ls`, with homes in `free` and in the slots from `used`
on. -/
structure Housed (free : List Reg) (used : Nat) (ls : Locals) (r : Resolution) : Prop where
  unread : ∀ (k : Nat) l, ls[k]? = some l → ∀ x ∈ l.pending, (x.index, .nop) ∈ r.patches
  write : ∀ (k : Nat) l, ls[k]? = some l → ∀ x ∈ l.confirmed,
    ∃ home i, r.home? k = some home ∧ home.write x.source = .ok i ∧ (x.index, i) ∈ r.patches
  read : ∀ (k : Nat) l, ls[k]? = some l → ∀ x ∈ l.reads,
    ∃ home i, r.home? k = some home ∧ home.read x.target = .ok i ∧ (x.index, i) ∈ r.patches
  register : ∀ k q, r.home? k = some (.register q) → q ∈ free ∧ r.homes.contains q = true
  slot : ∀ k n, r.home? k = some (.slot n) → used ≤ n ∧ n < r.slots
  slots : used ≤ r.slots
  /-- The offset of every slot has been encoded. -/
  encoded : used ≤ 4096 → r.slots ≤ 4096
  apart : ∀ k k' home, r.home? k = some home → r.home? k' = some home → k = k'

/-- A slot that is used has an offset that can be encoded. -/
theorem slot_lt {l : Local} {used : Nat} {out : List (Nat × Instruction)} (few : used ≤ 4096)
    (needed : l.needsHome = true) (resolved : patchesOf l (some (.slot used)) = .ok out) :
    used < 4096 := by
  obtain ⟨writes, reads⟩ := (patchesOf_resolved resolved).2 _ rfl
  simp only [Local.needsHome, Bool.or_eq_true, Bool.not_eq_true',
    List.isEmpty_eq_false_iff] at needed
  rcases needed with written | read
  · obtain ⟨x, member⟩ := List.exists_mem_of_ne_nil _ written
    obtain ⟨i, made, -⟩ := writes x member
    obtain ⟨imm, -, offset⟩ := Asm.str_ok made
    exact Asm.lt_of_encoded offset few
  · obtain ⟨x, member⟩ := List.exists_mem_of_ne_nil _ read
    obtain ⟨i, made, -⟩ := reads x member
    obtain ⟨imm, -, offset⟩ := Asm.ldr_ok made
    exact Asm.lt_of_encoded offset few

theorem housed {free : List Reg} {used : Nat} {ls : Locals} {r : Resolution} (once : free.Nodup)
    (resolved : resolveFrom free used ls = .ok r) : Housed free used ls r := by
  induction ls generalizing free used r with
  | nil =>
    cases resolved
    have none : ∀ k home, Resolution.home? ⟨[], used, .empty, []⟩ k ≠ some home := by
      intro k home found
      cases found
    have empty : ∀ (k : Nat) (l : Local), ([] : Locals)[k]? ≠ some l := by
      intro k l found
      cases found
    exact ⟨fun k l found => absurd found (empty k l), fun k l found => absurd found (empty k l),
      fun k l found => absurd found (empty k l), fun k q found => absurd found (none k _),
      fun k n found => absurd found (none k _), Nat.le_refl _, id,
      fun k k' home found => absurd found (none k home)⟩
  | cons l rest ih =>
    obtain ⟨home, free', used', patches, more, chosen, own, others, rfl⟩ :=
      resolveFrom_cons resolved
    obtain ⟨unread, ofHome⟩ := patchesOf_resolved own
    obtain ⟨fewer, later⟩ := homeFor_rest chosen
    have tail := ih (fewer.nodup once) others
    have homeless : home = none → l.confirmed = [] ∧ l.reads = [] := by
      rintro rfl
      simpa [Local.needsHome] using homeFor_none chosen
    have homes := homeFor_cases free used l
    rw [chosen] at homes
    -- The home of the first local is none of the others'.
    have first : ∀ h, home = some h → ∀ k, more.home? k ≠ some h := by
      rintro h rfl k taken
      rcases homes with ⟨-, same⟩ | ⟨q, _, rfl, same⟩ | ⟨-, -, same⟩
      all_goals cases same
      · exact (List.nodup_cons.1 once).1 (tail.register k q taken).1
      · have := (tail.slot k used taken).1
        omega
    have encoded : used ≤ 4096 → used' ≤ 4096 := by
      intro few
      rcases homes with ⟨-, same⟩ | ⟨_, _, -, same⟩ | ⟨needed, -, same⟩
      all_goals cases same
      · exact few
      · exact few
      · exact slot_lt few needed own
    refine ⟨?_, ?_, ?_, ?_, ?_, Nat.le_trans later tail.slots, fun few =>
      tail.encoded (encoded few), ?_⟩
    · rintro (_ | k) k' found x member
      · cases found
        exact List.mem_append_left _ (unread x member)
      · exact List.mem_append_right _ (tail.unread k k' found x member)
    · rintro (_ | k) k' found x member
      · cases found
        cases chosen : home with
        | none =>
          rw [(homeless chosen).1] at member
          cases member
        | some h =>
          obtain ⟨i, made, inside⟩ := (ofHome h chosen).1 x member
          exact ⟨h, i, rfl, made, List.mem_append_left _ inside⟩
      · obtain ⟨h, i, at_k, made, inside⟩ := tail.write k k' found x member
        exact ⟨h, i, at_k, made, List.mem_append_right _ inside⟩
    · rintro (_ | k) k' found x member
      · cases found
        cases chosen : home with
        | none =>
          rw [(homeless chosen).2] at member
          cases member
        | some h =>
          obtain ⟨i, made, inside⟩ := (ofHome h chosen).2 x member
          exact ⟨h, i, rfl, made, List.mem_append_left _ inside⟩
      · obtain ⟨h, i, at_k, made, inside⟩ := tail.read k k' found x member
        exact ⟨h, i, at_k, made, List.mem_append_right _ inside⟩
    · rintro (_ | k) q at_k
      · obtain rfl : home = some (.register q) := at_k
        refine ⟨?_, by simp⟩
        rcases homes with ⟨-, same⟩ | ⟨_, _, rfl, same⟩ | ⟨-, -, same⟩
        all_goals cases same
        exact List.mem_cons_self
      · obtain ⟨member, among⟩ := tail.register k q at_k
        refine ⟨fewer.subset member, ?_⟩
        cases home with
        | none => exact among
        | some h =>
          cases h with
          | register q' => exact RegSet.subset_insert _ _ q among
          | slot n => exact among
    · rintro (_ | k) n at_k
      · obtain rfl : home = some (.slot n) := at_k
        rcases homes with ⟨-, same⟩ | ⟨_, _, -, same⟩ | ⟨-, -, same⟩
        all_goals cases same
        exact ⟨Nat.le_refl _, tail.slots⟩
      · obtain ⟨low, high⟩ := tail.slot k n at_k
        exact ⟨Nat.le_trans later low, high⟩
    · rintro (_ | k) (_ | k') h at_k at_k'
      · rfl
      · exact absurd at_k' (first h at_k k')
      · exact absurd at_k (first h at_k' k)
      · rw [tail.apart k k' h at_k at_k']

end Locals

/-! ## Reading and writing homes -/

namespace Home

/-- What is at a home. -/
def value (m : Machine) : Home → Cell
  | register r => m.regs r
  | slot n => m.memory.load (m.regs .sp + 8 * BitVec.ofNat 64 n)

/-- The machine with `v` at a home. -/
def put (m : Machine) (v : Cell) : Home → Machine
  | register r => m.set r v
  | slot n => m.store (m.regs .sp + 8 * BitVec.ofNat 64 n) v

/-- The home is a register that only homes use, or a slot of a frame with `size` bytes. -/
def Fits (size : Nat) : Home → Prop
  | register r => 9 ≤ r.index ∧ r.index ≤ 15
  | slot n => 8 * n + 8 ≤ size

variable {home home' : Home} {m m' : Machine} {v : Cell} {size : Nat} {r : Reg}

theorem write_ok {source : Reg} (ok : home.write source = .ok i)
    (fits : home.Fits size) : i.isPlain = true ∧ i.apply m = home.put m (m.read source) := by
  cases home with
  | register r =>
    cases ok
    have other : r ≠ .xzr := by
      rintro rfl
      exact absurd fits.2 (by decide)
    exact ⟨rfl, Instruction.apply_mov.trans (m.write_of_ne _ other)⟩
  | slot n =>
    obtain ⟨imm, rfl, offset⟩ := Asm.str_ok ok
    refine ⟨rfl, ?_⟩
    show m.store (m.regs .sp + 8 * imm.setWidth 64) (m.read source) = _
    rw [offset]
    rfl

theorem read_ok {target : Reg} (ok : home.read target = .ok i)
    (data : target ≠ .xzr) (fits : home.Fits size) :
    i.isPlain = true ∧ i.apply m = m.set target (home.value m) := by
  cases home with
  | register r =>
    cases ok
    have other : r ≠ .xzr := by
      rintro rfl
      exact absurd fits.2 (by decide)
    refine ⟨rfl, ?_⟩
    rw [Instruction.apply_mov, m.write_of_ne _ data, m.read_of_ne other]
    rfl
  | slot n =>
    obtain ⟨imm, rfl, offset⟩ := Asm.ldr_ok ok
    refine ⟨rfl, ?_⟩
    show m.write target (m.memory.load (m.regs .sp + 8 * imm.setWidth 64)) = _
    rw [offset, m.write_of_ne _ data]
    rfl

/-- How far an address is from a slot. -/
theorem sub_slot {sp a : Cell} (inside : 8 * n + 8 ≤ size) (small : size ≤ 2 ^ 64) :
    (a - (sp + 8 * BitVec.ofNat 64 n)).toNat = ((a - sp).toNat + (2 ^ 64 - 8 * n)) % 2 ^ 64 := by
  rw [sub_add_eq_sub_sub, BitVec.toNat_sub, BitVec.toNat_mul, BitVec.toNat_ofNat]
  show (2 ^ 64 - 8 * (n % 2 ^ 64) % 2 ^ 64 + _) % 2 ^ 64 = _
  omega

theorem toNat_slot {sp : Cell} {b : Nat} (inside : 8 * n + 8 ≤ size) (small : size ≤ 2 ^ 64)
    (bound : b < 8) :
    (sp + 8 * BitVec.ofNat 64 n + BitVec.ofNat 64 b - sp).toNat = 8 * n + b := by
  rw [add_assoc, add_sub_cancel_left, BitVec.toNat_add, BitVec.toNat_mul, BitVec.toNat_ofNat,
    BitVec.toNat_ofNat]
  show (8 * (n % 2 ^ 64) % 2 ^ 64 + b % 2 ^ 64) % 2 ^ 64 = _
  omega

/-- Of the registers, at most the home changes. -/
theorem regs_put (other : home ≠ .register r) : (home.put m v).regs r = m.regs r := by
  cases home with
  | register q =>
    refine m.regs_set_of_ne v ?_
    rintro rfl
    exact other rfl
  | slot n => rfl

theorem register_ne (fits : home.Fits size) (outside : r.index < 9 ∨ 15 < r.index) :
    home ≠ .register r := by
  rintro rfl
  obtain ⟨low, high⟩ := fits
  omega

/-- Of the memory, at most the frame changes. -/
theorem memory_put (fits : home.Fits size) (small : size ≤ 2 ^ 64) {a : Cell}
    (outside : size ≤ (a - m.regs .sp).toNat) : (home.put m v).memory a = m.memory a := by
  cases home with
  | register q => rfl
  | slot n =>
    have inside : 8 * n + 8 ≤ size := fits
    have bound := (a - m.regs .sp).isLt
    refine Memory.store_of_outside ?_
    rw [sub_slot inside small]
    omega

theorem value_put (home : Home) (m : Machine) (v : Cell) : home.value (home.put m v) = v := by
  cases home with
  | register q => exact m.regs_set v q
  | slot n => exact Memory.load_store _ _ _

/-- What is at a home depends on its register or on the frame. -/
theorem value_congr (fits : home.Fits size) (small : size ≤ 2 ^ 64)
    (regs : ∀ q, home = .register q → m'.regs q = m.regs q) (sp : m'.regs .sp = m.regs .sp)
    (memory : ∀ a : Cell, (a - m.regs .sp).toNat < size → m'.memory a = m.memory a) :
    home.value m' = home.value m := by
  cases home with
  | register q => exact regs q rfl
  | slot n =>
    have inside : 8 * n + 8 ≤ size := fits
    show m'.memory.load (m'.regs .sp + _) = m.memory.load _
    rw [sp]
    refine Memory.bytes_congr fun k bound => memory _ ?_
    rw [toNat_slot inside small bound]
    omega

/-- Other homes stay as they are. -/
theorem value_put_of_ne (fits : home.Fits size) (fits' : home'.Fits size) (small : size ≤ 2 ^ 64)
    (other : home' ≠ home) : home'.value (home.put m v) = home'.value m := by
  have sp : (home.put m v).regs .sp = m.regs .sp :=
    regs_put (register_ne fits (Or.inr (by decide)))
  cases home' with
  | register q =>
    refine regs_put ?_
    rintro rfl
    exact other rfl
  | slot n =>
    cases home with
    | register q =>
      show Memory.load _ ((put m v (register q)).regs .sp + _) = Memory.load _ _
      rw [sp]
      rfl
    | slot k =>
      have apart : n ≠ k := by
        rintro rfl
        exact other rfl
      have inside : 8 * k + 8 ≤ size := fits
      have inside' : 8 * n + 8 ≤ size := fits'
      refine Memory.load_store_of_apart fun b bound => ?_
      rw [sp, sub_slot inside small, toNat_slot inside' small bound]
      omega

end Home

end ForthJit
