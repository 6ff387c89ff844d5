import ForthJit.Proofs.Compiler.Origin

/-!
# Emission keeps drafts sound

One lemma for each function that emits into a definition: from a sound draft it leaves a sound
draft, whether it succeeds or fails.  What a function writes it has announced before, a branch is
closed within the body, and a call is noted where it is made.
-/

namespace ForthJit

namespace Emit

open Safe

variable {src : Sources} {d0 : Draft}

/-! ## Values between words -/

theorem readLocal_safe (id : Nat) (target : Reg) : Sound src d0 (readLocal id target) := by
  refine bind_word fun d1 _ _ => ?_
  split
  · exact pure trivial
  · split
    · exact throw _
    · exact pure trivial
    · refine bind_clobber _ fun d2 _ within => seq (emit_safe rfl ?_) fun _ => pure trivial
      intro r member
      rw [Asm.mov, Instruction.written, List.mem_singleton] at member
      rw [member]
      exact Or.inr (announced within)
    · refine bind_clobber _ fun d2 _ within => bind_placeholder _ fun d3 index widens3 inside =>
        modifyLocal_safe (fun w widens l r member => ?_) fun l slot member => ?_
      · rcases List.mem_append.1 member with old | new
        · exact Or.inl old
        · rw [List.mem_singleton.1 new]
          exact Or.inr (widens.clobbered target (widens3.word.clobbered target (announced within)))
      · rcases List.mem_append.1 ((Locals.recordRead_slots ..).mem_iff.1 member) with old | new
        · exact Or.inl old
        · cases List.mem_singleton.1 new
          exact Or.inr inside

theorem assignLocal_safe (id : Nat) (reg : Reg) : Sound src d0 (assignLocal id reg) :=
  modifyLocal_safe (fun _ _ _ _ member => Or.inl member) fun _ _ member => Or.inl member

theorem push_safe (reg : Reg) : Sound src d0 (push reg) := by
  refine bind (assembled_safe _) fun store made => ?_
  obtain ⟨imm, -, rfl⟩ := except_map_eq_ok.1 made
  refine seq (emit_safe rfl fun r member => Or.inl ?_) fun _ => pure trivial
  rw [List.mem_singleton.1 member]
  decide

theorem pop_safe (reg : Reg) : Sound src d0 (pop reg) := by
  refine bind_clobber _ fun d1 _ within => bind (assembled_safe _) fun load made => ?_
  obtain ⟨imm, -, rfl⟩ := except_map_eq_ok.1 made
  refine seq (emit_safe rfl fun r member => ?_) fun _ => pure trivial
  rcases List.mem_cons.1 member with rfl | base
  · exact Or.inr (announced within)
  · rw [List.mem_singleton.1 base]
    exact Or.inl (by decide)

theorem produce_safe (reg : Reg) : Sound src d0 (produce reg) := by
  have count : Sound src d0 (do setDepth ((← depth) + 1)) :=
    seq depth_safe fun _ => setDepth_safe _
  refine seq convention_safe fun c => ?_
  cases c with
  | register => exact count
  | stack => exact seq (push_safe reg) fun _ => count

theorem consume_safe (what : String) : Sound src d0 (consume what) := by
  refine seq depth_safe fun depth => ?_
  dsimp only
  split
  · exact throw _
  · refine seq convention_safe fun c => ?_
    cases c with
    | register => exact seq (setDepth_safe _) fun _ => pure trivial
    | stack => exact seq (pop_safe _) fun _ => seq (setDepth_safe _) fun _ => pure trivial

theorem bindLocal_safe (id : Nat) : Sound src d0 (bindLocal id) :=
  bind_word fun _ _ _ => seq (consume_safe _) fun reg => assignLocal_safe id reg

theorem spreadInputs_safe (count : Nat) : Sound src d0 (spreadInputs count) := by
  refine seq convention_safe fun c => ?_
  cases c with
  | register => exact pure trivial
  | stack => exact forM fun _ _ => pop_safe _

theorem gatherOutputs_safe (count : Nat) : Sound src d0 (gatherOutputs count) := by
  refine seq convention_safe fun c => ?_
  cases c with
  | register => exact pure trivial
  | stack => exact forM fun _ _ => push_safe _

theorem exposeError_safe (reg : Reg) : Sound src d0 (exposeError reg) := by
  refine seq convention_safe fun c => ?_
  cases c with
  | register =>
    refine seq depth_safe fun depth => seq (arity_safe _) fun target => ?_
    dsimp only
    split
    · refine bind_clobber _ fun d1 _ within => seq (emit_safe rfl fun r member => ?_) fun _ =>
        setDepth_safe _
      rw [Asm.mov, Instruction.written, List.mem_singleton] at member
      rw [member]
      exact Or.inr (announced within)
    · exact setDepth_safe _
  | stack =>
    have count : Sound src d0 (do setDepth ((← depth) + 1)) :=
      seq depth_safe fun _ => setDepth_safe _
    refine seq (push_safe reg) fun _ => ?_
    dsimp only
    split
    · refine seq (emit_safe rfl fun r member => Or.inl ?_) fun _ => count
      rw [Asm.mov, Instruction.written, List.mem_singleton] at member
      rw [member]
      decide
    · exact count

theorem checkError_safe (reg : Reg) : Sound src d0 (checkError reg) := by
  refine bind_word fun _ _ _ => ?_
  split
  · exact raiseIfNonzero_safe reg
  · exact exposeError_safe reg

theorem literal_safe (value : Cell) : Sound src d0 (literal value) :=
  seq convention_safe fun _ => seq depth_safe fun _ => seq (arity_safe _) fun reg =>
    seq (loadImmediate_safe reg value) fun _ => produce_safe reg

theorem getLocal_safe (id : Nat) : Sound src d0 (getLocal id) :=
  seq convention_safe fun _ => seq depth_safe fun _ => seq (arity_safe _) fun reg =>
    seq (readLocal_safe id reg) fun _ => produce_safe reg

variable {callee : Entry} {body : List InstrWord}

theorem callEntry_safe
    (known : ∀ code, callee.kind = .compiled code → src.callee code.layout.entry callee.clobbers) :
    Sound src d0 (callEntry callee) := by
  refine seq convention_safe fun c => ?_
  cases c with
  | register =>
    dsimp only
    split
    · next code kind =>
      refine bind_clobber _ fun d1 _ within =>
        seq (callWord_safe (known code kind) (RegSet.subset_trans ?_ within)) fun _ => pure trivial
      exact RegSet.subset_union_left _ _
    all_goals
      exact bind_clobber _ fun d1 _ within =>
        seq (callAddress_safe _ _ within) fun _ => pure trivial
  | stack =>
    dsimp only
    split
    · next code kind =>
      refine bind_clobber _ fun d1 _ within =>
        seq (callWord_safe (known code kind) (RegSet.subset_trans ?_ within)) fun _ => pure trivial
      exact RegSet.subset_insert _ _
    all_goals
      exact seq (spreadInputs_safe _) fun _ => bind_clobber _ fun d1 _ within =>
        seq (callAddress_safe _ _ within) fun _ => seq (gatherOutputs_safe _) fun _ => pure trivial

theorem call_safe
    (known : ∀ code, callee.kind = .compiled code → src.callee code.layout.entry callee.clobbers) :
    Sound src d0 (call callee) := by
  refine seq depth_safe fun depth => seq convention_safe fun c => seq (arity_safe _) fun _ =>
    seq (callEntry_safe known) fun reg => seq (setDepth_safe _) fun _ => ?_
  split
  · exact checkError_safe reg
  · exact pure trivial

/-- Movable words may be copied once what they write has been announced. -/
theorem copy_safe {regs : RegSet} {rest : Emit Unit} (movable : ∀ v ∈ body, Movable src.raw regs v)
    (next : ∀ d1, Sound src d1 rest) :
    Sound src d0 (do
      clobber regs
      onHeap (CodeHeap.emitAll body)
      rest) :=
  bind_clobber _ fun _ _ within => seq (emitWords_safe fun v member _ widens _ _ =>
    .movable ((movable v member).mono (RegSet.subset_trans within widens.clobbered))) fun _ =>
      next _

theorem inlineBody_safe (movable : ∀ v ∈ body, Movable src.raw callee.clobbers v) :
    Sound src d0 (inlineBody callee body) :=
  seq depth_safe fun _ => seq convention_safe fun _ => seq (arity_safe _) fun _ =>
    copy_safe movable fun _ => setDepth_safe _

/-! ## Control flow -/

theorem ifPart_safe : Sound src d0 ifPart :=
  seq (consume_safe _) fun _ => seq barrier_safe fun _ => seq (placeholder_safe _) fun _ =>
    modifyWord_safe (fun _ _ => ⟨rfl, RegSet.subset_refl _, id, id, fun _ => rfl, id, id⟩)
      (fun _ _ _ member => Or.inl member)
      (fun _ _ l isLocal _ member => Or.inl ⟨l, isLocal, member⟩)
      (fun _ _ _ => Or.inr rfl) fun _ _ _ => Or.inl

/-- Closing a branch that starts at `branch` where the draft has got to. -/
theorem patch_safe {target branch : Nat} {j : Instruction} (branches : d0.word.hasBranches = true)
    (low : src.start + prologueSlots ≤ target) (high : target ≤ d0.heap.here)
    (made : Asm.b (distance branch target) = .ok j ∨
      ∃ reg, Asm.cbz reg (distance branch target) = .ok j) : Sound src d0 (patch branch j) := by
  refine of_step fun settings d sound known => ?_
  have origin : Origin src d.word d.heap.here branch j.encode :=
    .branch (known.word.hasBranches branches) (by rwa [Definition.body, sound.start])
      (Nat.le_trans high known.here) made
  obtain ⟨heap, word⟩ := d
  simp only [patch, onHeap, CodeHeap.patch]
  split
  · next ok =>
    split at ok
    · cases ok
    · split at ok
      · cases ok
        refine ⟨sound.replace origin, ⟨.refl _, ?_⟩, trivial⟩
        show heap.here ≤ (heap.staged.setIfInBounds branch j.encode).size
        simp [CodeHeap.here]
      · cases ok
  · next failed =>
    split at failed
    · cases failed
      exact ⟨sound, .refl _⟩
    · split at failed
      · cases failed
      · cases failed
        exact ⟨sound, .refl _⟩

theorem closeControl_safe {outer : List ControlFrame} (branches : d0.word.hasBranches = true) :
    Sound src d0 (modifyWord fun w => { w with control := outer }) :=
  modifyWord_safe (fun _ _ => ⟨rfl, RegSet.subset_refl _, id, id, id, id, id⟩)
    (fun _ _ _ member => Or.inl member) (fun _ _ l isLocal _ member => Or.inl ⟨l, isLocal, member⟩)
    (fun _ known _ => Or.inr (known.hasBranches branches)) fun _ _ _ => Or.inl

theorem elsePart_safe : Sound src d0 elsePart := by
  refine bind_word fun d1 _ sound => ?_
  split
  · next branch reg depth outer frames =>
    have branches : d1.word.hasBranches = true := sound.control (by rw [frames]; simp)
    refine seq (closeControl_safe branches) fun _ => seq barrier_safe fun _ =>
      bind_word fun d2 known2 _ => seq (placeholder_safe _) fun skip =>
        bind_here fun d3 known3 sound3 => bind (assembled_safe _) fun jump made => ?_
    have branches3 := known3.word.hasBranches (known2.word.hasBranches branches)
    refine seq (patch_safe branches3 sound3.room (Nat.le_refl _) (Or.inr ⟨reg, made⟩)) fun _ => ?_
    exact modifyWord_safe (fun _ _ => ⟨rfl, RegSet.subset_refl _, id, id, id, id, id⟩)
      (fun _ _ _ member => Or.inl member)
      (fun _ _ l isLocal _ member => Or.inl ⟨l, isLocal, member⟩)
      (fun _ known _ => Or.inr (known.hasBranches branches3)) fun _ _ _ => Or.inl
  · exact throw _

theorem join_safe (first second : Option Nat) : Sound src d0 (join first second) := by
  have note : ∀ depth unreachable,
      Sound src d0 (modifyWord fun w => { w with depth, unreachable }) := fun _ _ =>
    modifyWord_same (fun _ => ⟨rfl, RegSet.subset_refl _, id, id, id, id, id⟩)
      fun _ => ⟨rfl, rfl, rfl⟩
  unfold join
  split
  · dsimp only
    split
    · exact throw _
    · exact note _ _
  · exact note _ _
  · exact note _ _
  · exact modifyWord_same (fun _ => ⟨rfl, RegSet.subset_refl _, id, id, id, id, id⟩)
      fun _ => ⟨rfl, rfl, rfl⟩

theorem thenPart_safe : Sound src d0 thenPart := by
  refine bind_word fun d1 _ sound => ?_
  split
  · exact throw _
  · next frame outer frames =>
    have branches : d1.word.hasBranches = true := sound.control (by rw [frames]; simp)
    refine seq (closeControl_safe branches) fun _ => seq barrier_safe fun _ =>
      bind_here fun d2 known2 sound2 => bind_word fun d3 known3 _ => ?_
    have branches3 := known3.word.hasBranches (known2.word.hasBranches branches)
    cases frame with
    | ifPart branch reg depth =>
      exact bind (assembled_safe _) fun jump made =>
        seq (patch_safe branches3 sound2.room known3.here (Or.inr ⟨reg, made⟩)) fun _ =>
          join_safe _ _
    | elsePart skip depth trueDepth =>
      exact bind (assembled_safe _) fun jump made =>
        seq (patch_safe branches3 sound2.room known3.here (Or.inl made)) fun _ => join_safe _ _

theorem exit_safe : Sound src d0 exit := by
  refine bind_word fun d1 _ _ => ?_
  have leave : Sound src d1 (do
      let index ← placeholder .returnBranch
      pushPatch (.exit index)
      modifyWord fun w =>
        { w with earlyReturn := true, hasBranches := true, unreachable := true }) :=
    bind_placeholder _ fun _ _ _ inside =>
      pushPatch_safe (fun _ => ⟨rfl, RegSet.subset_refl _, id, id, fun _ => rfl, fun _ => rfl, id⟩)
        (fun _ => ⟨rfl, rfl, rfl⟩) (fun _ _ => ⟨rfl, rfl⟩)
        (by simpa [PendingPatch.slots] using inside)
  dsimp only
  split
  · exact leave
  · exact throw _

theorem raise_safe : Sound src d0 raise :=
  seq (consume_safe _) fun reg => raiseIfNonzero_safe reg

theorem recurse_safe : Sound src d0 recurse := by
  refine bind_word fun _ _ _ => seq convention_safe fun _ => seq (arity_safe _) fun _ =>
    bind_clobber _ fun d1 _ within => bind_placeholder _ fun d2 index widens2 inside =>
      bind_placeholder _ fun d3 check widens3 inside' =>
        pushPatch_safe (fun _ => ⟨rfl, RegSet.subset_refl _, fun _ => rfl, id, id, id, id⟩)
          (fun _ => ⟨rfl, rfl, rfl⟩) (fun w widens => ⟨rfl, ?_⟩) ?_
  · exact RegSet.subset_trans within
      ((widens2.word.trans widens3.word).trans widens).clobbered
  · simpa [PendingPatch.slots] using ⟨widens3.holds inside, inside'⟩

/-! ## Bodies -/

theorem declare_reads {ls : Locals} {name : String} {l : Local} {r : LocalRead}
    (isLocal : l ∈ (ls.declare name).2) (member : r ∈ l.reads) : ∃ l' ∈ ls, r ∈ l'.reads := by
  unfold Locals.declare at isLocal
  split at isLocal
  · exact ⟨l, isLocal, member⟩
  · rcases List.mem_append.1 isLocal with old | new
    · exact ⟨l, old, member⟩
    · rw [List.mem_singleton.1 new] at member
      cases member

/-- A new local has no slots. -/
theorem declare_slots (ls : Locals) (name : String) : (ls.declare name).2.slots = ls.slots := by
  unfold Locals.declare
  split
  · rfl
  · simp [Locals.slots, Local.slots]

theorem setLocal_eq (name : String) (settings : Settings) (d : Draft) :
    setLocal name settings d = bindLocal (d.word.locals.declare name).1 settings
      ⟨d.heap, { d.word with locals := (d.word.locals.declare name).2 }⟩ := rfl

theorem setLocal_safe (name : String) : Sound src d0 (setLocal name) := by
  refine of_step fun settings d sound _ => ?_
  let d1 : Draft := ⟨d.heap, { d.word with locals := (d.word.locals.declare name).2 }⟩
  have widens : d.Widens d1 := ⟨⟨rfl, RegSet.subset_refl _, id, id, id, id, id⟩, Nat.le_refl _⟩
  have declared : d1.Sound src :=
    sound.modify widens.word (fun _ member => Or.inl member)
      (fun l isLocal r member => Or.inl (declare_reads isLocal member)) Or.inl fun slot member => by
        rw [Definition.due, declare_slots] at member
        exact Or.inl member
  have bound : Sound src d1 (bindLocal (d.word.locals.declare name).1) := bindLocal_safe _
  have left := bound settings d1 ⟨declared, .refl d1⟩
  rw [setLocal_eq]
  cases outcome : bindLocal (d.word.locals.declare name).1 settings d1 with
  | ok a d' =>
    rw [outcome] at left
    exact ⟨left.1.1, widens.trans left.1.2, trivial⟩
  | error e d' =>
    rw [outcome] at left
    exact ⟨left.1, widens.trans left.2⟩

theorem getLocalCalled_safe (name : String) : Sound src d0 (getLocalCalled name) := by
  refine bind_word fun _ _ _ => ?_
  split
  · exact getLocal_safe _
  · exact throw _

theorem instruction_safe {v : InstrWord} {clobbers : RegSet} (allowed : src.raw v clobbers) :
    Sound src d0 (instruction v clobbers) :=
  bind_clobber _ fun _ _ within => emitWord_safe fun _ widens _ _ =>
    .movable (.raw allowed (RegSet.subset_trans within widens.clobbered))

theorem primitiveBody_safe (inputs outputs : Nat) {clobbers : RegSet}
    (movable : ∀ v ∈ body, Movable src.raw clobbers v) :
    Sound src d0 (primitiveBody inputs outputs clobbers body) :=
  seq (spreadInputs_safe _) fun _ => copy_safe movable fun _ =>
    seq (gatherOutputs_safe _) fun _ => setDepth_safe _

end Emit

end ForthJit
