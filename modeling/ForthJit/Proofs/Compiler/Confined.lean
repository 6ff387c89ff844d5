import ForthJit.Proofs.Compiler.Routine
import ForthJit.Proofs.Definition.Resolution
import ForthJit.Proofs.Memory.HeapStep

/-!
# Emission stays in the open definition

A definition is emitted after everything that was there when it began, and what is patched are the
positions its ledger names.  So emission, whether it succeeds or fails, leaves every word that was
staged before, and it forgets neither which entry it is for nor what to go back to.
-/

namespace ForthJit

/-- `h` came from `b` by operations that keep every word of `b`. -/
structure CodeHeap.Follows (b h : CodeHeap) : Prop where
  base : b.Consistent
  extended : b.Extends h
  consistent : h.Consistent
  shares : b.SharesBelow b.here h

theorem CodeHeap.Follows.of_grows {b h h' : CodeHeap} (follows : b.Follows h)
    (grows : Grows b.here h h') : b.Follows h' := by
  obtain ⟨extended, consistent, shares⟩ := grows follows.consistent follows.shares.here
  exact ⟨follows.base, follows.extended.trans extended, consistent, shares.here,
    fun i low => (shares.words i low).trans (follows.shares.words i low)⟩

/-- `w` is a later form of `origin`, and its ledger names no position below `n`. -/
structure Definition.Above (n : Nat) (origin w : Definition) : Prop where
  entry : w.entry = origin.entry
  snapshot : w.snapshot = origin.snapshot
  signature : w.signature = origin.signature
  slots : ∀ slot ∈ w.slots, n ≤ slot.1

/-- A draft of `origin` on top of the heap `b`. -/
structure Draft.Confined (b : CodeHeap) (origin : Definition) (d : Draft) : Prop where
  heap : b.Follows d.heap
  word : Definition.Above b.here origin d.word

namespace Emit

variable {α β : Type} {b : CodeHeap} {origin : Definition}

/-- Emission by `m` stays in the draft, and its result is in `Q`. -/
def Confined (b : CodeHeap) (origin : Definition) (m : Emit α) (Q : α → Prop) : Prop :=
  ∀ settings, Keeps (Draft.Confined b origin) (m settings) Q

/-- Emission by `m` stays in the draft. -/
abbrev Steady (b : CodeHeap) (origin : Definition) (m : Emit α) : Prop :=
  Confined b origin m fun _ => True

namespace Confined

variable {m : Emit α} {f : α → Emit β} {Q : α → Prop} {R : β → Prop}

theorem pure {a : α} (result : Q a) : Confined b origin (pure a) Q :=
  fun _ => Keeps.pure result

theorem throw (e : CompileError) : Confined b origin (throw e : Emit α) Q :=
  fun _ => Keeps.throw e

theorem bind (first : Confined b origin m Q) (second : ∀ a, Q a → Confined b origin (f a) R) :
    Confined b origin (m >>= f) R :=
  fun settings => Keeps.bind (first settings) fun a result => second a result settings

/-- The usual case: nothing about the result of the first part matters. -/
theorem seq (first : Steady b origin m) (second : ∀ a, Confined b origin (f a) R) :
    Confined b origin (m >>= f) R :=
  bind first fun a _ => second a

theorem read : Steady b origin read := fun _ => Keeps.pure trivial

theorem forM {xs : List β} {f : β → Emit PUnit} (each : ∀ x ∈ xs, Steady b origin (f x)) :
    Steady b origin (xs.forM f) := by
  induction xs with
  | nil => exact pure trivial
  | cons x xs ih =>
    exact seq (each x List.mem_cons_self) fun _ =>
      ih fun y member => each y (List.mem_cons_of_mem _ member)

end Confined

open Confined

/-! ## Basic steps -/

theorem onHeap_confined {operation : HeapM α} (grows : Leaves (CodeHeap.Grows b.here) operation) :
    Steady b origin (onHeap operation) := by
  intro settings d confined
  obtain ⟨heap, word⟩ := d
  have followed := confined.heap.of_grows (grows heap)
  simp only [onHeap]
  cases outcome : operation heap with
  | ok a heap' =>
    rw [stateAfter_of_ok outcome] at followed
    exact ⟨⟨followed, confined.word⟩, trivial⟩
  | error e heap' =>
    rw [stateAfter_of_error outcome] at followed
    exact ⟨followed, confined.word⟩

theorem assembled_ok (result : Except EncodeError α) :
    Confined b origin (assembled result) fun a => result = .ok a := by
  cases result with
  | ok a => exact pure rfl
  | error e => exact throw _

theorem word_confined : Confined b origin word (Definition.Above b.here origin) :=
  fun _ _ confined => ⟨confined, confined.word⟩

theorem get_confined : Confined b origin get (Draft.Confined b origin) :=
  fun _ _ confined => ⟨confined, confined⟩

theorem modifyWord_confined {f : Definition → Definition}
    (kept : ∀ w, Definition.Above b.here origin w → Definition.Above b.here origin (f w)) :
    Steady b origin (modifyWord f) :=
  fun _ d confined => ⟨⟨confined.heap, kept d.word confined.word⟩, trivial⟩

/-- A change that shows neither in the ledger nor in the identity of the definition. -/
theorem modifyWord_steady {f : Definition → Definition}
    (same : ∀ w, (f w).entry = w.entry ∧ (f w).snapshot = w.snapshot ∧
      (f w).signature = w.signature ∧ (f w).slots = w.slots) :
    Steady b origin (modifyWord f) :=
  modifyWord_confined fun w above =>
    ⟨(same w).1.trans above.entry, (same w).2.1.trans above.snapshot,
      (same w).2.2.1.trans above.signature, by
        rw [(same w).2.2.2]
        exact above.slots⟩

theorem here_confined : Steady b origin here := fun _ _ confined => ⟨confined, trivial⟩

theorem depth_confined : Steady b origin depth := fun _ _ confined => ⟨confined, trivial⟩

theorem setDepth_confined (depth : Nat) : Steady b origin (setDepth depth) :=
  modifyWord_steady fun _ => ⟨rfl, rfl, rfl, rfl⟩

/-- A new word goes above everything that was there. -/
theorem emitWord_confined (w : InstrWord) : Confined b origin (emitWord w) (b.here ≤ ·) := by
  intro settings d confined
  have steady : Steady b origin (emitWord w) := onHeap_confined (CodeHeap.emit_leaves w)
  replace steady := steady settings d confined
  obtain ⟨heap, word⟩ := d
  have enough : b.here ≤ heap.here := confined.heap.shares.here
  simp only [emitWord, onHeap] at steady ⊢
  by_cases room : heap.staged.size < heap.capacity
  · simp only [CodeHeap.emit, room, if_true] at steady ⊢
    exact ⟨steady.1, enough⟩
  · simp only [CodeHeap.emit, room, if_false] at steady ⊢
    exact steady

theorem Confined.weaken {m : Emit α} {Q : α → Prop} (confined : Confined b origin m Q) :
    Steady b origin m := by
  intro settings d inside
  have kept := confined settings d inside
  cases outcome : m settings d with
  | ok a d' =>
    rw [outcome] at kept
    exact ⟨kept.1, trivial⟩
  | error e d' =>
    rw [outcome] at kept
    exact kept

theorem assembled_confined (result : Except EncodeError α) : Steady b origin (assembled result) :=
  (assembled_ok result).weaken

theorem emit_confined (i : Instruction) : Steady b origin (emit i) := (emitWord_confined _).weaken

theorem emitAll_confined (is : List Instruction) : Steady b origin (emitAll is) :=
  onHeap_confined (CodeHeap.emitAll_leaves _)

theorem placeholder_confined (p : Placeholder) : Confined b origin (placeholder p) (b.here ≤ ·) :=
  emitWord_confined _

theorem patch_confined {index : Nat} (high : b.here ≤ index) (i : Instruction) :
    Steady b origin (patch index i) :=
  onHeap_confined (CodeHeap.patch_leaves high _)

/-! ## The ledger -/

/-- The ledger of a definition whose parts are all above `n` is above `n`. -/
theorem above_of_parts {n : Nat} {w w' : Definition} (above : Definition.Above n origin w)
    (entry : w'.entry = w.entry) (snapshot : w'.snapshot = w.snapshot)
    (signature : w'.signature = w.signature) (start : w'.start = w.start)
    (patches : ∀ slot ∈ w'.patches.flatMap PendingPatch.slots,
      slot ∈ w.patches.flatMap PendingPatch.slots ∨ n ≤ slot.1)
    (locals : ∀ slot ∈ w'.locals.slots, slot ∈ w.locals.slots ∨ n ≤ slot.1)
    (control : ∀ slot ∈ w'.control.flatMap ControlFrame.slots,
      slot ∈ w.control.flatMap ControlFrame.slots ∨ n ≤ slot.1) :
    Definition.Above n origin w' := by
  refine ⟨entry.trans above.entry, snapshot.trans above.snapshot,
    signature.trans above.signature, ?_⟩
  have slots := above.slots
  simp only [Definition.slots, Definition.prologue, start, List.mem_append] at slots ⊢
  grind

theorem pushPatch_confined {p : PendingPatch} (high : ∀ slot ∈ p.slots, b.here ≤ slot.1) :
    Steady b origin (pushPatch p) := by
  refine modifyWord_confined fun w above =>
    above_of_parts above rfl rfl rfl rfl ?_ (fun _ member => Or.inl member)
      fun _ member => Or.inl member
  intro slot member
  simp only [List.flatMap_append, List.mem_append, List.flatMap_cons, List.flatMap_nil,
    List.append_nil] at member
  exact member.imp id (high slot)

/-- What is resolved are the positions in the ledger. -/
theorem takePatches_confined (targets : PatchTargets) :
    Confined b origin (takePatches targets) fun resolved =>
      ∀ patch ∈ resolved, b.here ≤ patch.1 := by
  refine bind word_confined fun w above => ?_
  have cleared : Steady b origin (modifyWord fun w => { w with patches := [] }) :=
    modifyWord_confined fun v above =>
      above_of_parts above rfl rfl rfl rfl (fun _ member => by simp at member)
        (fun _ member => Or.inl member) fun _ member => Or.inl member
  simp only [PendingPatch.resolve]
  cases resolved : PendingPatch.resolveFrom targets 0 w.patches with
  | error e => exact seq cleared fun _ => throw _
  | ok out =>
    refine seq cleared fun _ => pure fun patch member => ?_
    have index : patch.1 ∈ (w.patches.flatMap PendingPatch.slots).map (·.1) := by
      rw [← PendingPatch.resolveFrom_indices resolved]
      exact List.mem_map_of_mem member
    obtain ⟨slot, inLedger, same⟩ := List.mem_map.1 index
    rw [← same]
    refine above.slots slot ?_
    simp only [Definition.slots, List.mem_append]
    exact Or.inl (Or.inl (Or.inr inLedger))

theorem position?_counts (h : CodeHeap) : Locals.Counts h.here h.position? := by
  intro count index placed
  simp only [CodeHeap.position?] at placed
  split at placed
  · exact (Option.some.inj placed).symm
  · cases placed

theorem spill_confined (regs : RegSet) : Steady b origin (spill regs) := by
  refine bind get_confined fun d inside => ?_
  have enough : b.here ≤ d.heap.here := inside.heap.shares.here
  obtain ⟨-, perm⟩ := Locals.clobber_slots (position?_counts d.heap) regs 0 d.word.locals
  refine seq (modifyWord_confined fun w above => ?_) fun _ =>
    seq (onHeap_confined (CodeHeap.emitAll_leaves _)) fun _ => ?_
  · refine above_of_parts above rfl rfl rfl rfl (fun _ member => Or.inl member) ?_
      fun _ member => Or.inl member
    intro slot member
    right
    rcases List.mem_append.1 (perm.mem_iff.1 member) with old | new
    · refine inside.word.slots slot ?_
      simp only [Definition.slots, List.mem_append]
      exact Or.inl (Or.inr old)
    · simp only [Locals.writeSlots, List.mem_map, List.mem_range'_1] at new
      obtain ⟨index, ⟨low, -⟩, rfl⟩ := new
      show b.here ≤ index
      omega
  · split
    · exact pure trivial
    · exact throw _

theorem clobber_confined (regs : RegSet) : Steady b origin (clobber regs) :=
  seq (spill_confined regs) fun _ => modifyWord_steady fun _ => ⟨rfl, rfl, rfl, rfl⟩

theorem barrier_confined : Steady b origin barrier := spill_confined _

theorem loadImmediate_confined (reg : Reg) (value : Cell) :
    Steady b origin (loadImmediate reg value) := by
  refine seq (clobber_confined _) fun _ => seq read fun settings => ?_
  split
  · exact emitAll_confined _
  · refine bind (placeholder_confined _) fun index high =>
      seq (pushPatch_confined ?_) fun _ => modifyWord_steady fun _ => ⟨rfl, rfl, rfl, rfl⟩
    simpa [PendingPatch.slots] using high

theorem raiseIfNonzero_confined (reg : Reg) : Steady b origin (raiseIfNonzero reg) :=
  bind (placeholder_confined _) fun index high =>
    seq (pushPatch_confined (by simpa [PendingPatch.slots] using high)) fun _ =>
      modifyWord_steady fun _ => ⟨rfl, rfl, rfl, rfl⟩

/-- Changing a local without reserving anything. -/
theorem modifyLocal_above {n : Nat} {w : Definition} {id : Nat} {f : Local → Local}
    (above : Definition.Above n origin w)
    (slots : ∀ l, ∀ slot ∈ (f l).slots, slot ∈ l.slots ∨ n ≤ slot.1) :
    Definition.Above n origin { w with locals := w.locals.modify id f } := by
  refine above_of_parts above rfl rfl rfl rfl (fun _ member => Or.inl member) ?_
    fun _ member => Or.inl member
  intro slot member
  obtain ⟨l, isLocal, inLocal⟩ := List.mem_flatMap.1 member
  obtain ⟨i, bound, rfl⟩ := List.mem_iff_getElem.1 isLocal
  rw [List.getElem_modify] at inLocal
  simp only [List.length_modify] at bound
  have old : w.locals[i] ∈ w.locals := List.getElem_mem bound
  split at inLocal
  · rcases slots _ slot inLocal with kept | new
    · exact Or.inl (List.mem_flatMap.2 ⟨_, old, kept⟩)
    · exact Or.inr new
  · exact Or.inl (List.mem_flatMap.2 ⟨_, old, inLocal⟩)

theorem readLocal_confined (id : Nat) (target : Reg) : Steady b origin (readLocal id target) := by
  refine bind word_confined fun w _ => ?_
  split
  · exact pure trivial
  · split
    · exact throw _
    · exact pure trivial
    · exact seq (clobber_confined _) fun _ => seq (emit_confined _) fun _ => pure trivial
    · refine seq (clobber_confined _) fun _ => bind (placeholder_confined _) fun index high =>
        modifyWord_confined fun w above => modifyLocal_above above fun l slot member => ?_
      rcases List.mem_append.1 ((Locals.recordRead_slots ..).mem_iff.1 member) with old | new
      · exact Or.inl old
      · cases List.mem_singleton.1 new
        exact Or.inr high

theorem assignLocal_confined (id : Nat) (reg : Reg) : Steady b origin (assignLocal id reg) :=
  modifyWord_confined fun _ above => modifyLocal_above above fun _ _ member => Or.inl member

/-! ## Values between words -/

theorem steady : Counting fun {_} m => Steady b origin m where
  pure := fun _ => pure trivial
  bind := seq
  convention := fun _ => Keeps.pure trivial
  here := here_confined
  assembled := fun next => bind (assembled_ok _) next
  emit := fun _ => emit_confined _
  clobber := clobber_confined
  loadImmediate := loadImmediate_confined
  leave := modifyWord_steady fun _ => ⟨rfl, rfl, rfl, rfl⟩
  throw := throw
  word := word_confined.weaken
  depth := depth_confined
  setDepth := setDepth_confined
  readLocal := readLocal_confined
  assignLocal := assignLocal_confined

theorem call_confined (callee : Entry) : Steady b origin (call callee) :=
  steady.call raiseIfNonzero_confined callee

theorem inlineBody_confined (callee : Entry) (body : List InstrWord) :
    Steady b origin (inlineBody callee body) :=
  steady.inlineBody callee (onHeap_confined (CodeHeap.emitAll_leaves _))

/-! ## Control flow -/

/-- Opening or closing branches. -/
theorem control_above {n : Nat} {w w' : Definition} (above : Definition.Above n origin w)
    (same : w'.entry = w.entry ∧ w'.snapshot = w.snapshot ∧ w'.signature = w.signature ∧
      w'.start = w.start ∧ w'.patches = w.patches ∧ w'.locals = w.locals)
    (slots : ∀ slot ∈ w'.control.flatMap ControlFrame.slots, n ≤ slot.1) :
    Definition.Above n origin w' := by
  obtain ⟨entry, snapshot, signature, start, patches, locals⟩ := same
  refine above_of_parts above entry snapshot signature start ?_ ?_ fun slot member =>
    Or.inr (slots slot member)
  · rw [patches]
    exact fun _ member => Or.inl member
  · rw [locals]
    exact fun _ member => Or.inl member

theorem control_slots {n : Nat} {w : Definition} (above : Definition.Above n origin w) :
    ∀ slot ∈ w.control.flatMap ControlFrame.slots, n ≤ slot.1 := by
  intro slot member
  refine above.slots slot ?_
  simp only [Definition.slots, List.mem_append]
  exact Or.inr member

theorem ifPart_confined : Steady b origin ifPart := by
  refine seq (steady.consume _) fun reg => seq barrier_confined fun _ =>
    bind (placeholder_confined _) fun branch high => modifyWord_confined fun w above => ?_
  refine control_above above ⟨rfl, rfl, rfl, rfl, rfl, rfl⟩ ?_
  intro slot member
  rcases List.mem_cons.1 member with rfl | outer
  · exact high
  · exact control_slots above slot outer

theorem elsePart_confined : Steady b origin elsePart := by
  refine bind word_confined fun w above => ?_
  split
  · next branch reg depth outer frames =>
    have all := control_slots above
    rw [frames] at all
    simp only [List.flatMap_cons, ControlFrame.slots, List.singleton_append, List.mem_cons,
      forall_eq_or_imp] at all
    refine seq (modifyWord_confined fun w above =>
      control_above above ⟨rfl, rfl, rfl, rfl, rfl, rfl⟩ all.2) fun _ =>
      seq barrier_confined fun _ => bind word_confined fun w _ =>
        bind (placeholder_confined _) fun skip high => seq here_confined fun _ =>
          seq (assembled_confined _) fun jump => seq (patch_confined all.1 _) fun _ =>
            modifyWord_confined fun w above => ?_
    refine control_above above ⟨rfl, rfl, rfl, rfl, rfl, rfl⟩ ?_
    intro slot member
    rcases List.mem_cons.1 member with rfl | outer
    · exact high
    · exact control_slots above slot outer
  · exact throw _

theorem join_confined (first second : Option Nat) : Steady b origin (join first second) := by
  unfold join
  split
  · dsimp only
    split
    · exact throw _
    · exact modifyWord_steady fun _ => ⟨rfl, rfl, rfl, rfl⟩
  all_goals exact modifyWord_steady fun _ => ⟨rfl, rfl, rfl, rfl⟩

theorem thenPart_confined : Steady b origin thenPart := by
  refine bind word_confined fun w above => ?_
  split
  · exact throw _
  · next frame outer frames =>
    have all := control_slots above
    rw [frames] at all
    simp only [List.flatMap_cons, List.mem_append] at all
    refine seq (modifyWord_confined fun w above =>
      control_above above ⟨rfl, rfl, rfl, rfl, rfl, rfl⟩ fun slot member =>
        all slot (Or.inr member))
      fun _ =>
      seq barrier_confined fun _ => seq here_confined fun target =>
        bind word_confined fun w _ => ?_
    cases frame with
    | ifPart branch | elsePart branch =>
      have high : b.here ≤ branch := all _ (Or.inl (List.mem_singleton.2 rfl))
      exact seq (assembled_confined _) fun jump => seq (patch_confined high _) fun _ =>
        join_confined _ _

theorem exit_confined : Steady b origin exit := by
  refine bind word_confined fun w _ => ?_
  dsimp only
  have leave : Steady b origin (do
      let index ← placeholder .returnBranch
      pushPatch (.exit index)
      modifyWord fun w =>
        { w with earlyReturn := true, hasBranches := true, unreachable := true }) :=
    bind (placeholder_confined _) fun index high =>
      seq (pushPatch_confined (by simpa [PendingPatch.slots] using high)) fun _ =>
        modifyWord_steady fun _ => ⟨rfl, rfl, rfl, rfl⟩
  split
  · exact leave
  · exact throw _

theorem raise_confined : Steady b origin raise := steady.raise raiseIfNonzero_confined

theorem recurse_confined : Steady b origin recurse :=
  bind word_confined fun _ _ => seq steady.convention fun _ => seq (steady.arity _) fun _ =>
    seq (clobber_confined _) fun _ => bind (placeholder_confined _) fun index high =>
      bind (placeholder_confined _) fun check high' =>
        seq (pushPatch_confined (by simpa [PendingPatch.slots] using ⟨high, high'⟩)) fun _ =>
          modifyWord_steady fun _ => ⟨rfl, rfl, rfl, rfl⟩

/-! ## Bodies -/

theorem setLocal_confined (name : String) : Steady b origin (setLocal name) := by
  refine bind word_confined fun w above => ?_
  refine seq (modifyWord_confined fun v above' => ?_) fun _ => steady.bindLocal _
  refine above_of_parts above' rfl rfl rfl rfl (fun _ member => Or.inl member) ?_
    fun _ member => Or.inl member
  intro slot member
  right
  refine above.slots slot ?_
  simp only [Definition.slots, List.mem_append]
  refine Or.inl (Or.inr ?_)
  split at member
  · exact member
  · simpa [Locals.slots, Local.slots] using member

theorem instruction_confined (w : InstrWord) (clobbers : RegSet) :
    Steady b origin (instruction w clobbers) :=
  seq (clobber_confined _) fun _ => (emitWord_confined w).weaken

theorem primitiveBody_confined (inputs outputs : Nat) (clobbers : RegSet)
    (body : List InstrWord) : Steady b origin (primitiveBody inputs outputs clobbers body) :=
  steady.primitiveBody inputs outputs clobbers (onHeap_confined (CodeHeap.emitAll_leaves _))

/-! ## Layout -/

theorem checkFinished_confined : Steady b origin checkFinished := by
  refine bind word_confined fun w _ => ?_
  split
  · exact throw _
  · exact throw _
  · split
    · exact pure trivial
    · exact throw _

theorem emitExits_confined (frame : Frame) (errorReg : Reg) (throws : Bool) :
    Steady b origin (emitExits frame errorReg throws) :=
  seq here_confined fun _ => seq (emitAll_confined _) fun _ => seq here_confined fun _ =>
    seq (assembled_confined _) fun _ => seq (emitAll_confined _) fun _ =>
      seq (emit_confined _) fun _ => pure trivial

theorem emitStubs_confined (errorReg : Reg) (errorPath : Nat) (regs : List Reg) :
    Steady b origin (emitStubs errorReg errorPath regs) := by
  induction regs with
  | nil => exact pure trivial
  | cons reg rest ih =>
    exact seq (emit_confined _) fun _ => seq here_confined fun _ => seq (assembled_confined _)
      fun _ => seq (emit_confined _) fun _ => seq ih fun _ => pure trivial

theorem emitLiterals_confined (values : List Cell) : Steady b origin (emitLiterals values) :=
  seq here_confined fun _ => seq (emitAll_confined _) fun _ => seq here_confined fun _ =>
    seq (forM fun value _ => seq (onHeap_confined (CodeHeap.emitLiteral_leaves value)) fun _ =>
      pure trivial) fun _ => pure trivial

theorem patchAll_confined {patches : List (Nat × Instruction)}
    (high : ∀ patch ∈ patches, b.here ≤ patch.1) : Steady b origin (patchAll patches) :=
  forM fun patch member => patch_confined (high patch member) _

theorem fillPrologue_confined {start : Nat} (high : b.here ≤ start) (frame : Frame) :
    Steady b origin (fillPrologue start frame) := by
  refine seq (assembled_confined _) fun setup => seq (patchAll_confined ?_) fun _ => pure trivial
  intro patch member
  obtain ⟨⟨i, n⟩, -, rfl⟩ := List.mem_map.1 member
  exact Nat.le_add_right_of_le high

theorem verify_confined (start data : Nat) : Steady b origin (verify start data) := by
  refine bind get_confined fun d _ => ?_
  split
  · exact throw _
  · exact pure trivial

theorem layOut_confined (throws : Bool) : Steady b origin (layOut throws) := by
  refine seq checkFinished_confined fun _ => bind word_confined fun w above =>
    seq read fun settings => ?_
  have prologue : b.here ≤ w.start := by
    refine above.slots (w.start, .prologue) ?_
    simp [Definition.slots, Definition.prologue, prologueSlots, List.range_succ]
  refine bind (assembled_ok _) fun locals resolved => seq (emitExits_confined _ _ _) fun exits =>
    seq here_confined fun data => seq (emitStubs_confined _ _ _) fun stubs =>
      seq (emitLiterals_confined _) fun literals => seq here_confined fun stop =>
        seq (fillPrologue_confined prologue _) fun entry =>
          bind (takePatches_confined _) fun patches high => seq (patchAll_confined high) fun _ =>
            seq (patchAll_confined ?_) fun _ => pure trivial
  intro patch member
  have index : patch.1 ∈ w.locals.slots.map (·.1) := by
    rw [← Locals.resolveFrom_indices resolved]
    exact List.mem_map_of_mem member
  obtain ⟨slot, inLedger, same⟩ := List.mem_map.1 index
  rw [← same]
  refine above.slots slot ?_
  simp only [Definition.slots, List.mem_append]
  exact Or.inl (Or.inr inLedger)

theorem finish_confined (throws : Bool) : Steady b origin (finish throws) :=
  seq (layOut_confined throws) fun _ => bind word_confined fun _ _ =>
    seq (verify_confined _ _) fun _ => seq read fun _ => pure trivial

end Emit

end ForthJit
