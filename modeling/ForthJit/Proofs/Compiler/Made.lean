import ForthJit.Proofs.Compiler.Ended
import ForthJit.Proofs.Memory.Protection

/-!
# Finished words

`Part` lists what a word of finished code can be: movable, or an instruction made for its position
(`Site`), which is a jump inside the word, a call of an older word or of the word itself, a call by
address, a load of a literal, the return, the end of an error stub or padding.  `Compiler.Made` says
of a whole word how it is laid out and that it has no other parts, and `Compiler.Built.made` that
every finished word is like that, now and after whatever follows.
-/

namespace ForthJit

/-- The parts of a word with `count` literals follow one another. -/
structure WordLayout.Ordered (l : WordLayout) (count : Nat) : Prop where
  start_le_entry : l.start ≤ l.entry
  entry_le_body : l.entry ≤ l.body
  body_eq : l.body = l.start + prologueSlots
  body_le_epilogue : l.body ≤ l.epilogue
  epilogue_le_errorPath : l.epilogue ≤ l.errorPath
  errorPath_le_ret : l.errorPath ≤ l.ret
  data_eq : l.data = l.ret + 1
  data_le_literals : l.data ≤ l.literals
  stop_eq : l.stop = l.literals + 2 * count
  literals_even : count ≠ 0 → l.literals % 2 = 0

/-- Where a word with `stubs` error stubs may jump to: into the body, an exit or a stub. -/
def WordLayout.Inside (l : WordLayout) (stubs target : Nat) : Prop :=
  l.body ≤ target ∧ target ≤ l.ret ∨ ∃ n < stubs, target = l.data + 2 * n

/-- An instruction that is made for the position `i` of finished code. -/
inductive Site (callee : Nat → RegSet → Prop) (code : CompiledWord) (clobbers : RegSet)
    (patches : List PendingPatch) (stubs i : Nat) : Instruction → Prop
  | jump {j : Instruction} {words : Int} {target : Nat} : i < code.layout.epilogue →
      code.hasBranches = true ∨ code.leaf = false → j.jump? = some words →
      (target : Int) = i + words → code.layout.Inside stubs target →
      Site callee code clobbers patches stubs i j
  | call {words : BitVec 26} {entry : Nat} {regs : RegSet} : i < code.layout.epilogue →
      code.leaf = false → callee entry regs → regs ⊆ clobbers → (entry : Int) = i + words.toInt →
      Site callee code clobbers patches stubs i (.branchLink words)
  | recursion {words : BitVec 26} {check : Nat} : i < code.layout.epilogue → code.leaf = false →
      RegSet.callerSaved ⊆ clobbers → .recursion i check ∈ patches →
      (code.layout.entry : Int) = i + words.toInt →
      Site callee code clobbers patches stubs i (.branchLink words)
  | callReg (reg : Reg) : i < code.layout.epilogue → code.leaf = false →
      RegSet.callerSaved ⊆ clobbers → Site callee code clobbers patches stubs i (.callReg reg)
  | load {reg : Reg} {words : BitVec 19} {value : Cell} {k : Nat} : i < code.layout.epilogue →
      code.pcRelative = true → clobbers.contains reg = true → .literal i reg value ∈ patches →
      (PendingPatch.literals patches)[k]? = some value →
      ((code.layout.literals + 2 * k : Nat) : Int) = i + words.toInt →
      Site callee code clobbers patches stubs i (.loadLiteral reg words)
  | ret : i = code.layout.ret → Site callee code clobbers patches stubs i .ret
  | leave {words : BitVec 26} {n : Nat} : n < stubs → i = code.layout.data + 2 * n + 1 →
      (code.layout.errorPath : Int) = i + words.toInt →
      Site callee code clobbers patches stubs i (.branch words)
  | padding : code.layout.data + 2 * stubs ≤ i → Site callee code clobbers patches stubs i .nop

/-- What the word at position `i` of finished code can be. -/
inductive Part (raw : InstrWord → RegSet → Prop) (callee : Nat → RegSet → Prop)
    (code : CompiledWord) (clobbers : RegSet) (patches : List PendingPatch) (stubs i : Nat) :
    InstrWord → Prop
  | movable {v : InstrWord} : i < code.layout.ret ∨ (∃ n < stubs, i = code.layout.data + 2 * n) →
      Movable raw clobbers v → Part raw callee code clobbers patches stubs i v
  | site {j : Instruction} : Site callee code clobbers patches stubs i j →
      Part raw callee code clobbers patches stubs i j.encode

section Part

variable {raw : InstrWord → RegSet → Prop} {callee callee' : Nat → RegSet → Prop}
  {code : CompiledWord} {clobbers : RegSet} {patches : List PendingPatch} {stubs i : Nat}
  {v : InstrWord} {j : Instruction}

theorem Site.mono (more : ∀ entry regs, callee entry regs → callee' entry regs)
    (site : Site callee code clobbers patches stubs i j) :
    Site callee' code clobbers patches stubs i j := by
  cases site with
  | jump before branches jumps target inside => exact .jump before branches jumps target inside
  | call before calls known within target =>
    exact .call before calls (more _ _ known) within target
  | recursion before calls within pending target =>
    exact .recursion before calls within pending target
  | callReg reg before calls within => exact .callReg reg before calls within
  | load before loads within pending rank target =>
    exact .load before loads within pending rank target
  | ret here => exact .ret here
  | leave isStub here target => exact .leave isStub here target
  | padding beyond => exact .padding beyond

theorem Part.mono (more : ∀ entry regs, callee entry regs → callee' entry regs)
    (part : Part raw callee code clobbers patches stubs i v) :
    Part raw callee' code clobbers patches stubs i v := by
  cases part with
  | movable place movable => exact .movable place movable
  | site site => exact .site (site.mono more)

/-- The word of an instruction is movable, or the instruction was made for its position. -/
theorem Part.instruction (part : Part raw callee code clobbers patches stubs i j.encode) :
    Movable raw clobbers j.encode ∨ Site callee code clobbers patches stubs i j := by
  generalize same : j.encode = v at part
  cases part with
  | movable _ movable => exact Or.inl movable
  | site site =>
    rw [Instruction.encode_injective same]
    exact Or.inr site

/-- The body of a word that may be copied can be moved. -/
theorem Part.movable_of_inlinable (part : Part raw callee code clobbers patches stubs i v)
    {count : Nat} (ordered : code.layout.Ordered count) {throws : Bool}
    (inlinable : code.inlineRefusal? throws = none) (high : i < code.layout.epilogue) :
    Movable raw clobbers v := by
  have flags : code.leaf = true ∧ code.pcRelative = false ∧ code.hasBranches = false := by
    unfold CompiledWord.inlineRefusal? at inlinable
    grind
  obtain ⟨leaf, absolute, straight⟩ := flags
  cases part with
  | movable _ movable => exact movable
  | site site =>
    cases ordered
    cases site with
    | jump _ branches =>
      rcases branches with branches | calls
      · cases straight.symm.trans branches
      · cases leaf.symm.trans calls
    | call _ calls | recursion _ calls | callReg _ _ calls => cases leaf.symm.trans calls
    | load _ loads => cases absolute.symm.trans loads
    | ret here | leave isStub here | padding beyond => omega

end Part

/-! ## Error stubs -/

namespace Stubbed

variable {errorReg : Reg} {errorPath here : Nat} {regs : List Reg} {stubs : List (Reg × Nat)}
  {code : List InstrWord}

variable (stubbed : Stubbed errorReg errorPath here regs stubs code)

include stubbed

theorem length :
    code.length = 2 * regs.length := by
  induction stubbed with
  | nil => rfl
  | cons _ _ ih =>
    simp only [List.length_append, List.length_cons, List.length_nil, ih]
    omega

/-- A stub is a move and a jump to the error path. -/
theorem words {m : Nat} {v : InstrWord}
    (at_m : code[m]? = some v) : ∃ n < regs.length,
      (m = 2 * n ∧ ∃ reg, v = (Asm.mov errorReg reg).encode) ∨
        m = 2 * n + 1 ∧ ∃ leave, Asm.b (distance (here + m) errorPath) = .ok leave ∧
          v = leave.encode := by
  induction stubbed generalizing m with
  | nil => cases at_m
  | @cons here reg regs stubs code leave jump _ ih =>
    match m with
    | 0 =>
      cases at_m
      exact ⟨0, Nat.succ_pos _, Or.inl ⟨rfl, reg, rfl⟩⟩
    | 1 =>
      cases at_m
      exact ⟨0, Nat.succ_pos _, Or.inr ⟨rfl, leave, jump, rfl⟩⟩
    | m + 2 =>
      obtain ⟨n, bound, move | leaves⟩ := ih at_m
      · exact ⟨n + 1, Nat.succ_lt_succ bound, Or.inl ⟨by omega, move.2⟩⟩
      · refine ⟨n + 1, Nat.succ_lt_succ bound, Or.inr ⟨by omega, ?_⟩⟩
        rw [show here + (m + 2) = here + 2 + m by omega]
        exact leaves.2

theorem targets {reg : Reg} {n : Nat}
    (found : stubs.lookup reg = some n) : ∃ k < regs.length, n = here + 2 * k := by
  induction stubbed with
  | nil => cases found
  | @cons here first regs stubs code leave _ _ ih =>
    rw [List.lookup_cons] at found
    split at found
    · cases found
      exact ⟨0, Nat.succ_pos _, rfl⟩
    · obtain ⟨k, bound, rfl⟩ := ih found
      exact ⟨k + 1, Nat.succ_lt_succ bound, by omega⟩

end Stubbed

/-! ## The parts of an ended definition -/

/-- The frame is set up with reserved registers only. -/
theorem Frame.prologue_plain {frame : Frame} {setup : List Instruction}
    (ok : frame.prologue = .ok setup) :
    ∀ j ∈ setup, j.isPlain = true ∧ ∀ r ∈ j.written, r.isReserved = true := by
  rcases prologue_ok ok with ⟨-, rfl⟩ | ⟨-, -, rfl⟩ | ⟨-, -, reserve, reserved, rfl⟩
  · simp
  · decide
  · obtain ⟨⟨imm, shifted⟩, -, rfl⟩ := except_map_eq_ok.1 reserved
    simp only [List.forall_mem_cons]
    exact ⟨by decide, by decide, ⟨rfl, by simp [Instruction.written, Reg.isReserved]⟩, by simp⟩

/-- The frame is removed with reserved registers only. -/
theorem Frame.epilogue_plain {frame : Frame} {teardown : List Instruction}
    (ok : frame.epilogue = .ok teardown) :
    ∀ j ∈ teardown, j.isPlain = true ∧ ∀ r ∈ j.written, r.isReserved = true := by
  rcases epilogue_ok ok with ⟨-, rfl⟩ | ⟨-, -, rfl⟩ | ⟨-, -, rfl⟩
  · simp
  · decide
  · decide

theorem Movable.nop (raw : InstrWord → RegSet → Prop) (regs : RegSet) :
    Movable raw regs Instruction.nop.encode :=
  .plain rfl (by simp [Instruction.written])

/-- A move between registers announces its target. -/
theorem Movable.mov {raw : InstrWord → RegSet → Prop} {regs : RegSet} {rd : Reg} (rm : Reg)
    (announced : regs.contains rd = true) : Movable raw regs (Asm.mov rd rm).encode := by
  refine .plain rfl fun r written => ?_
  rw [List.mem_singleton.1 written]
  exact Or.inr announced

namespace Compiler.Ended

variable {b c c' : Compiler} {w : Definition} {p : LayoutParts} {laid : Laid} {d : Draft}
  {code : CompiledWord} {e e' : Entry} {src : Sources} {i : Nat} {v : InstrWord} {j : Instruction}

/-- The number of error stubs. -/
def stubs (_ : Ended b c w c' p laid d code e e') : Nat :=
  (PendingPatch.stubRegisters (c.settings.convention.errorReg w.signature.outputs) w.patches).length

variable (ended : Ended b c w c' p laid d code e e')

include ended

theorem ordered (sound : Draft.Sound src ⟨c.heap, w⟩) :
    code.layout.Ordered (PendingPatch.literals w.patches).length := by
  have fits := (Frame.prologue_isTrap ended.laidOut.setup).1
  have room : src.start + prologueSlots ≤ c.heap.here := sound.room
  have start : w.start = src.start := sound.start
  have parity := ended.laidOut.parity
  rw [ended.layout]
  rw [ended.laidOut.layout] at parity ⊢
  constructor
  case body_eq | data_eq | stop_eq => rfl
  case literals_even => exact fun some => parity fun none => some (by rw [none]; rfl)
  all_goals
    simp only [LayoutParts.layout, Definition.body]
    omega

theorem epilogue_eq :
    code.layout.epilogue = c.heap.here := by
  rw [ended.layout, ended.laidOut.layout]
  rfl

/-- What was announced while the body was emitted is announced by the word. -/
theorem clobbered_subset :
    w.clobbered ⊆ e'.clobbers := by
  rw [ended.clobbers, ended.laidOut.clobbers]
  apply RegSet.subset_trans _ (RegSet.subset_union_left _ _)
  show w.clobbered ⊆ w.overwritten _ _
  unfold Definition.overwritten
  split
  · exact RegSet.subset_insert _ _
  · exact RegSet.subset_refl _

theorem homes_subset :
    p.locals.homes ⊆ e'.clobbers := by
  rw [ended.clobbers, ended.laidOut.clobbers]
  exact RegSet.subset_union_right _ _

/-- A word that throws announces its error register. -/
theorem errorReg_mem (throws : c.throwing w = true) :
    e'.clobbers.contains (c.settings.convention.errorReg w.signature.outputs) = true := by
  rw [ended.clobbers, ended.laidOut.clobbers]
  apply RegSet.subset_union_left
  show (w.overwritten _ _).contains _ = true
  rw [Definition.overwritten, if_pos throws]
  simp

theorem stubs_le :
    code.layout.data + 2 * ended.stubs ≤ code.layout.literals := by
  have length := ended.laidOut.stubs.length
  rw [ended.layout, ended.laidOut.layout]
  simp only [LayoutParts.layout, stubs, length]
  omega

/-- An error leaves by the error path or by a stub. -/
theorem errorTarget_inside (sound : Draft.Sound src ⟨c.heap, w⟩) (reg : Reg) :
    code.layout.Inside ended.stubs (PendingPatch.errorTarget (p.targets w laid.layout
      (c.settings.convention.errorReg w.signature.outputs) (c.throwing w)) reg) := by
  have direct : code.layout.Inside ended.stubs laid.layout.errorPath := by
    left
    rw [← ended.layout]
    cases ended.ordered sound
    omega
  unfold PendingPatch.errorTarget
  split
  · exact direct
  · show code.layout.Inside _ ((p.stubs.lookup reg).getD laid.layout.errorPath)
    cases found : p.stubs.lookup reg with
    | none => exact direct
    | some n =>
      obtain ⟨k, bound, rfl⟩ := ended.laidOut.stubs.targets found
      right
      rw [ended.layout]
      exact ⟨k, bound, rfl⟩

theorem stop_eq : code.layout.stop = d.heap.here := by
  rw [ended.layout, ended.laidOut.here, ended.laidOut.layout]
  rfl

theorem here_eq :
    c'.heap.here = code.layout.stop :=
  (congrArg Array.size ended.staged).trans ended.stop_eq.symm

theorem start_eq (sound : Draft.Sound src ⟨c.heap, w⟩) : code.layout.start = src.start := by
  rw [ended.layout, ended.laidOut.layout]
  exact sound.start

/-- A distance that could be encoded leads to its target. -/
theorem reaches (addressable : d.heap.here < 2 ^ 63)
    {target : Nat} (low : i < code.layout.stop) (high : target ≤ code.layout.stop) {words : Int}
    (far : words = distance i target) : (target : Int) = i + words := by
  rw [ended.stop_eq] at low high
  rw [far, distance_eq (Nat.lt_trans low addressable) (Nat.lt_of_le_of_lt high addressable)]
  omega

section

variable (sound : Draft.Sound src ⟨c.heap, w⟩)

include sound

theorem inside_le {target : Nat} (inside : code.layout.Inside ended.stubs target) :
    target ≤ code.layout.stop := by
  cases ended.ordered sound
  have := ended.stubs_le
  rcases inside with ⟨-, high⟩ | ⟨n, bound, rfl⟩ <;> omega

/-- A jump inside the body. -/
theorem jump_part (addressable : d.heap.here < 2 ^ 63) (high : i < c.heap.here)
    (branches : w.hasBranches = true ∨ w.leaf = false) (target : Nat)
    (inside : code.layout.Inside ended.stubs target)
    (jumps : j.jump? = some (distance i target)) :
    Part src.raw src.callee code e'.clobbers w.patches ended.stubs i j.encode := by
  have before : i < code.layout.epilogue := by
    rw [ended.epilogue_eq]
    exact high
  have bound : i < code.layout.stop := by
    cases ended.ordered sound
    omega
  rw [← ended.hasBranches, ← ended.leaf] at branches
  exact .site (.jump before branches jumps
    (ended.reaches addressable bound (ended.inside_le sound inside) rfl) inside)

/-- What a pending patch leaves. -/
theorem pending_part (addressable : d.heap.here < 2 ^ 63)
    (high : i < c.heap.here)
    (resolves : PendingPatch.Resolves (p.targets w laid.layout
      (c.settings.convention.errorReg w.signature.outputs) (c.throwing w)) 0 w.patches i j) :
    Part src.raw src.callee code e'.clobbers w.patches ended.stubs i j.encode := by
  cases ended.ordered sound
  have before : i < code.layout.epilogue := by
    rw [ended.epilogue_eq]
    exact high
  cases resolves with
  | exit member made =>
    obtain ⟨words, rfl, far⟩ := Asm.b_ok made
    have accounted : w.earlyReturn = true ∧ w.hasBranches = true := sound.patches _ member
    apply ended.jump_part sound addressable high (Or.inl accounted.2) code.layout.epilogue
    · left
      omega
    · rw [ended.layout]
      exact congrArg some far
  | @error _ reg member made =>
    obtain ⟨words, rfl, far⟩ := Asm.cbnz_ok made
    have accounted : w.raises = true ∧ w.hasBranches = true := sound.patches _ member
    exact ended.jump_part sound addressable high (Or.inl accounted.2) _
      (ended.errorTarget_inside sound reg) (congrArg some far)
  | recursion member made =>
    obtain ⟨words, rfl, far⟩ := Asm.bl_ok made
    have accounted : w.leaf = false ∧ RegSet.callerSaved ⊆ w.clobbered := sound.patches _ member
    apply Part.site
    apply Site.recursion before (ended.leaf.trans accounted.1)
      (RegSet.subset_trans accounted.2 ended.clobbered_subset) member
    apply ended.reaches addressable (by omega) (by omega)
    rw [ended.layout]
    exact far
  | check member checks made =>
    obtain ⟨words, rfl, far⟩ := Asm.cbnz_ok made
    have accounted : w.leaf = false ∧ RegSet.callerSaved ⊆ w.clobbered := sound.patches _ member
    apply ended.jump_part sound addressable high (Or.inr accounted.1) code.layout.errorPath
    · left
      omega
    · rw [ended.layout]
      exact congrArg some far
  | unchecked member unchecks => exact .movable (Or.inl (by omega)) (.nop _ _)
  | @literal _ reg value k member rank made =>
    obtain ⟨words, rfl, far⟩ := Asm.ldrLiteral_ok made
    have accounted : w.pcRelative = true ∧ w.clobbered.contains reg = true :=
      sound.patches _ member
    have inside : k < (PendingPatch.literals w.patches).length :=
      (List.getElem?_eq_some_iff.1 rank).1
    apply Part.site
    apply Site.load before (ended.pcRelative.trans accounted.1)
      (ended.clobbered_subset reg accounted.2) member rank
    apply ended.reaches addressable (by omega) (by omega)
    rw [ended.layout]
    rwa [Nat.zero_add] at far

/-- What a read or a write of a local becomes. -/
theorem local_part (before : i < code.layout.ret)
    (resolves : Locals.Resolves p.locals.homes w.locals i j) :
    Part src.raw src.callee code e'.clobbers w.patches ended.stubs i j.encode := by
  refine .movable (Or.inl before) (.plain resolves.plain.1 fun q written => Or.inr ?_)
  rcases resolves.plain.2 q written with isHome | ⟨l, isLocal, r, isRead, rfl⟩
  · exact ended.homes_subset q isHome
  · exact ended.clobbered_subset _ (sound.reads l isLocal r isRead)

/-- What was staged in the body and is not patched. -/
theorem staged_part (addressable : d.heap.here < 2 ^ 63)
    (older : ∀ entry regs, src.callee entry regs → entry ≤ src.start)
    (holds : Draft.Holds ⟨c.heap, w⟩ i) (staged : c.heap.word? i = some v) (final : Final v) :
    Part src.raw src.callee code e'.clobbers w.patches ended.stubs i v := by
  obtain ⟨low, high⟩ := holds
  have before : i < code.layout.epilogue := by
    rw [ended.epilogue_eq]
    exact high
  have known := ended.clobbered_subset
  have body : w.body = code.layout.body := by
    rw [ended.layout, ended.laidOut.layout]
    rfl
  have exits : code.layout.epilogue = c.heap.here := ended.epilogue_eq
  cases ended.ordered sound
  cases sound.words i v low staged with
  | movable movable => exact .movable (Or.inl (by omega)) (movable.mono known)
  | @branch j target branches above below made =>
    apply ended.jump_part sound addressable high (Or.inl branches) target
    · left
      replace above : w.body ≤ target := above
      replace below : target ≤ c.heap.here := below
      omega
    · rcases made with made | ⟨reg, made⟩
      · obtain ⟨words, rfl, far⟩ := Asm.b_ok made
        exact congrArg some far
      · obtain ⟨words, rfl, far⟩ := Asm.cbz_ok made
        exact congrArg some far
  | call calls isCallee within made =>
    obtain ⟨words, rfl, far⟩ := Asm.bl_ok made
    apply Part.site
    apply Site.call before (ended.leaf.trans calls) isCallee (RegSet.subset_trans within known)
    have below := older _ _ isCallee
    have room : src.start + prologueSlots ≤ c.heap.here := sound.room
    exact ended.reaches addressable (by omega) (by omega) far
  | callReg reg calls within =>
    exact .site (.callReg reg before (ended.leaf.trans calls) (RegSet.subset_trans within known))
  | placeholder p => exact absurd final p.not_final

/-- Only a word that throws has stubs. -/
theorem throws_of_stubs (some : 0 < ended.stubs) : c.throwing w = true := by
  have pending : ∃ index reg, .error index reg ∈ w.patches := by
    by_contra none
    obtain ⟨reg, stub⟩ := List.exists_mem_of_length_pos some
    obtain ⟨-, index, member⟩ := PendingPatch.mem_stubRegisters.1 stub
    exact none ⟨index, reg, member⟩
  obtain ⟨index, reg, member⟩ := pending
  have accounted : w.raises = true ∧ w.hasBranches = true := sound.patches _ member
  rw [throwing, accounted.1, Bool.true_or]

end

/-- Nothing but announced and reserved registers is written on the way out. -/
theorem exit_movable
    (member : v ∈ (LayoutParts.clear (c.settings.convention.errorReg w.signature.outputs)
      (c.throwing w) ++ p.teardown).map Instruction.encode) : Movable src.raw e'.clobbers v := by
  obtain ⟨j, isExit, rfl⟩ := List.mem_map.1 member
  rcases List.mem_append.1 isExit with clears | removes
  · unfold LayoutParts.clear at clears
    split at clears
    · next throws =>
      rw [List.mem_singleton.1 clears]
      exact .mov _ (ended.errorReg_mem throws)
    · cases clears
  · obtain ⟨plain, reserved⟩ := Frame.epilogue_plain ended.laidOut.teardown j removes
    exact .plain plain fun r written => Or.inl (reserved r written)

/-- What follows the body. -/
theorem trailer_part (sound : Draft.Sound src ⟨c.heap, w⟩) (addressable : d.heap.here < 2 ^ 63)
    (past : c.heap.here ≤ i)
    (staged : (p.trailer (c.settings.convention.errorReg w.signature.outputs)
      (c.throwing w))[i - c.heap.here]? = some v) :
    Part src.raw src.callee code e'.clobbers w.patches ended.stubs i v := by
  have exits : code.layout.epilogue = c.heap.here := ended.epilogue_eq
  have points : code.layout.ret = c.heap.here + (LayoutParts.clear
        (c.settings.convention.errorReg w.signature.outputs) (c.throwing w) ++ p.teardown).length ∧
      code.layout.data = code.layout.ret + 1 := by
    rw [ended.layout, ended.laidOut.layout, List.length_append, ← Nat.add_assoc]
    exact ⟨rfl, rfl⟩
  unfold LayoutParts.trailer at staged
  rw [List.getElem?_append] at staged
  split at staged
  · rw [List.getElem?_append] at staged
    split at staged
    · next inExit =>
      rw [List.length_map, LayoutParts.exitCode, List.length_append,
        List.length_singleton] at inExit
      rw [LayoutParts.exitCode, List.map_append, List.getElem?_append, List.length_map] at staged
      split at staged
      · next before =>
          exact .movable (Or.inl (by omega)) (ended.exit_movable (List.mem_of_getElem? staged))
      · next atRet =>
        rw [show i - c.heap.here - _ = 0 by omega] at staged
        cases staged
        exact .site (.ret (by omega))
    · next inStub afterExit =>
      rw [List.length_map, LayoutParts.exitCode, List.length_append,
        List.length_singleton] at afterExit
      rw [List.length_map, LayoutParts.exitCode, List.length_append,
        List.length_singleton] at staged
      obtain ⟨n, isStub, ⟨even, reg, rfl⟩ | ⟨odd, leave, made, rfl⟩⟩ :=
        ended.laidOut.stubs.words staged
      · have throws := ended.throws_of_stubs sound (Nat.zero_lt_of_lt isStub)
        exact .movable (Or.inr ⟨n, isStub, by omega⟩) (.mov _ (ended.errorReg_mem throws))
      · obtain ⟨words, rfl, far⟩ := Asm.b_ok made
        have here : i = code.layout.data + 2 * n + 1 := by omega
        apply Part.site
        apply Site.leave isStub here
        have fits := ended.stubs_le
        cases ended.ordered sound
        rw [← ended.layout, odd, ← Nat.add_assoc, ← here] at far
        change n < ended.stubs at isStub
        exact ended.reaches addressable (by omega) (by omega) far
  · next afterStubs =>
    obtain ⟨j, isPadding, rfl⟩ := List.mem_map.1 (List.mem_of_getElem? staged)
    rw [ended.laidOut.padding j isPadding]
    rw [List.length_append, List.length_map, LayoutParts.exitCode, List.length_append,
      List.length_singleton, ended.laidOut.stubs.length] at afterStubs
    apply Part.site
    apply Site.padding
    show code.layout.data + 2 * (PendingPatch.stubRegisters _ w.patches).length ≤ i
    change ¬_ < _ + 1 + 2 * (PendingPatch.stubRegisters _ w.patches).length at afterStubs
    omega

/-- Every word of an ended definition up to its literals is a part of it. -/
theorem parts (sound : Draft.Sound src ⟨c.heap, w⟩)
    (addressable : d.heap.here < 2 ^ 63)
    (older : ∀ entry regs, src.callee entry regs → entry ≤ src.start)
    (low : code.layout.start ≤ i) (high : i < code.layout.literals)
    (at_i : d.heap.word? i = some v) :
    Part src.raw src.callee code e'.clobbers w.patches ended.stubs i v := by
  have start : w.start = code.layout.start := by
    rw [ended.layout, ended.laidOut.layout]
    rfl
  have before : ∀ {i}, Draft.Holds ⟨c.heap, w⟩ i → i < code.layout.ret := by
    intro i holds
    have inBody : i < code.layout.epilogue := ended.epilogue_eq ▸ holds.2
    cases ended.ordered sound
    omega
  cases ended.laidOut.placed sound.due (start ▸ low) (ended.layout ▸ high) at_i with
  | @prologue j below content =>
    have inFront : i < code.layout.ret := by
      have room : w.body ≤ c.heap.here := by
        rw [Definition.body, sound.start]
        exact sound.room
      have inBody : i < code.layout.epilogue := ended.epilogue_eq ▸ Nat.lt_of_lt_of_le below room
      cases ended.ordered sound
      omega
    apply Part.movable (Or.inl inFront)
    rcases content with rfl | isSetup
    · exact .nop _ _
    · obtain ⟨plain, reserved⟩ := Frame.prologue_plain ended.laidOut.setup j isSetup
      exact .plain plain fun r written => Or.inl (reserved r written)
  | pending holds resolves => exact ended.pending_part sound addressable holds.2 resolves
  | ofLocal holds resolves => exact ended.local_part sound (before holds) resolves
  | staged holds staged =>
    have inBody := before holds
    refine ended.staged_part sound addressable older holds staged (ended.final i v ?_ ?_ at_i)
    · exact start ▸ low
    · rw [← ended.layout]
      cases ended.ordered sound
      omega
  | trailer past staged => exact ended.trailer_part sound addressable past staged

end Compiler.Ended

/-! ## Every finished word -/

/-- No heap is so large that a position could not be read as itself. -/
theorem CodeHeap.create_capacity {host : Host} {layout : HeapLayout} {h : CodeHeap}
    (created : create host layout = .ok h) : h.capacity < 2 ^ 62 := by
  obtain ⟨kept, -, -, length⟩ := create_mapped created
  obtain ⟨-, -, -, inside⟩ := kept.carved.member h.executable_isPart
  unfold executableSpan wordBytes at inside
  dsimp only at inside
  omega

namespace Compiler

variable {strict : Prop} {raw : InstrWord → RegSet → Prop} {l : Records} {b c c' : Compiler}

theorem Built.capacity (built : Built strict raw l c) : c.heap.capacity < 2 ^ 62 := by
  induction built with
  | start started =>
    obtain ⟨host, empty, created, extended, -⟩ := started.grown
    exact extended.capacity.trans_lt (CodeHeap.create_capacity created)
  | enter _ _ _ _ _ _ _ ih => exact ih
  | define built begun worked isOpen finished ih =>
    have follows := (worked.opened built.idle.follows begun).follows.finishWord isOpen
    rw [stateAfter_of_ok finished] at follows
    exact follows.heap.extended.capacity.trans_lt ih
  | again _ follows _ _ _ _ _ ih => exact follows.heap.extended.capacity.trans_lt ih

/-- Positions of a finished word are read as themselves. -/
theorem Built.addressable (built : Built strict raw l b) (follows : b.Follows c') {w : Definition}
    {p : LayoutParts} {laid : Laid} {d : Draft} {code : CompiledWord} {e e' : Entry}
    (ended : Ended b c w c' p laid d code e e') : d.heap.here < 2 ^ 63 := by
  have capacity := follows.heap.extended.capacity
  have within := follows.heap.consistent.here_le
  have bounded := built.capacity
  have staged : c'.heap.here = d.heap.here := congrArg Array.size ended.staged
  omega

/-- The words that the entry `e` may call, if its code begins at `start`. -/
def mayCall (c : Compiler) (strict : Prop) (e : Entry) (start entry : Nat) (clobbers : RegSet) :
    Prop :=
  ∃ id callee code, c.HasWord id callee code ∧ code.layout.entry = entry ∧
    callee.clobbers = clobbers ∧ code.layout.stop ≤ start ∧ (strict → id ∈ e.callees)

/-- The entry `e` has finished code, made with the pending patches `patches`. -/
structure Made (strict : Prop) (raw : InstrWord → RegSet → Prop) (c : Compiler)
    (patches : List PendingPatch) (e : Entry) (code : CompiledWord) : Prop where
  ordered : code.layout.Ordered (PendingPatch.literals patches).length
  stop_le : code.layout.stop ≤ c.heap.here
  parts : ∃ stubs, code.layout.data + 2 * stubs ≤ code.layout.literals ∧
    ∀ i v, code.layout.start ≤ i → i < code.layout.literals → c.heap.word? i = some v →
      Part raw (c.mayCall strict e code.layout.start) code e.clobbers patches stubs i v
  literals : ∀ k value, (PendingPatch.literals patches)[k]? = some value →
    c.heap.word? (code.layout.literals + 2 * k) = some (value.extractLsb' 0 32) ∧
      c.heap.word? (code.layout.literals + 2 * k + 1) = some (value.extractLsb' 32 32)

/-- Finished words stay as they are. -/
theorem Made.of_follows {patches : List PendingPatch} {e : Entry} {code : CompiledWord}
    (made : b.Made strict raw patches e code) (start : b.Follows b) (follows : b.Follows c)
    (callers : List EntryId) : c.Made strict raw patches { e with callers } code := by
  have kept : ∀ i < code.layout.stop, c.heap.word? i = b.heap.word? i := fun i bound =>
    follows.heap.shares.words i (Nat.lt_of_lt_of_le bound made.stop_le)
  have below := made.stop_le
  obtain ⟨stubs, fits, parts⟩ := made.parts
  have ordered := made.ordered
  cases made.ordered
  refine ⟨ordered, Nat.le_trans below follows.heap.shares.here, ⟨stubs, fits, ?_⟩, ?_⟩
  · intro i v low high at_i
    rw [kept i (by omega)] at at_i
    apply (parts i v low high at_i).mono
    rintro entry regs ⟨id, callee, code', word, at_entry, clobbers, before, recorded⟩
    obtain ⟨others, word'⟩ := word.of_follows start follows
    exact ⟨id, _, code', word', at_entry, clobbers, before, recorded⟩
  · intro k value rank
    have bound : k < (PendingPatch.literals patches).length := (List.getElem?_eq_some_iff.1 rank).1
    rw [kept _ (by omega), kept _ (by omega)]
    exact made.literals k value rank

/-- What may be copied can be moved. -/
theorem Made.copyable (words : b.Words (b.Made strict raw) l) (clean : b.Clean) :
    b.Copyable raw := by
  intro id e code found kind inlinable i low high
  obtain ⟨v, at_i, -⟩ := clean id e code found kind i low high
  have made := words id e code found kind
  obtain ⟨stubs, -, parts⟩ := made.parts
  have ordered := made.ordered
  cases made.ordered
  have part := parts i v (by omega) (by omega) at_i
  exact ⟨v, at_i, part.movable_of_inlinable ordered inlinable high⟩

theorem made_invariant (s : Settings) : WordInvariant strict raw s (Made strict raw) where
  stable := fun start follows made callers => made.of_follows start follows callers
  new := by
    intro l b c0 c c' w name signature id id' p laid d code e e' built _ words begun worked isOpen
      finished follows ended
    have start := built.idle.follows
    obtain ⟨called, sound, recorded⟩ :=
      worked.sound start (Made.copyable words built.idle.clean) begun isOpen
    have ordered := ended.ordered sound
    have addressable := built.addressable follows ended
    have word : ∀ i, c'.heap.word? i = d.heap.word? i := fun i => by
      rw [CodeHeap.word?, ended.staged]
      rfl
    refine ⟨ordered, ended.here_eq.ge, ⟨ended.stubs, ended.stubs_le, ?_⟩, ?_⟩
    · intro i v low high at_i
      rw [word] at at_i
      have older : ∀ entry regs, (b.sources raw called).callee entry regs →
          entry ≤ b.heap.here := by
        rintro entry regs ⟨id, -, e0, code0, found, kind, rfl, -⟩
        have made := words id e0 code0 found kind
        have := made.stop_le
        cases made.ordered
        omega
      apply (ended.parts sound addressable older low high at_i).mono
      rintro entry regs ⟨id, isCalled, e0, code0, found, kind, at_entry, clobbers⟩
      have idle := built.idle.definition
      obtain ⟨others, word'⟩ := HasWord.of_follows ⟨found, kind, by simp [idle]⟩ start follows
      refine ⟨id, _, code0, word', at_entry, clobbers, ?_, fun all => ?_⟩
      · rw [ended.start_eq sound]
        exact (words id e0 code0 found kind).stop_le
      · rw [ended.callees]
        exact recorded all id isCalled e ended.before
    · intro k value rank
      rw [word, word]
      have room : w.body ≤ c.heap.here := by
        rw [Definition.body, sound.start]
        exact sound.room
      rw [ended.layout]
      exact ended.laidOut.literal_words room sound.due rank

theorem Built.made (built : Built strict raw l c) : c.Words (c.Made strict raw) l :=
  (made_invariant c.settings).words built rfl

end Compiler

end ForthJit
