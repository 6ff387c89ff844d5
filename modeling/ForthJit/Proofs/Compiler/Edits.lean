import ForthJit.Proofs.Compiler.Conduct
import ForthJit.Proofs.Compiler.Work
import ForthJit.Proofs.Machine.Flow

/-!
# Emission as a sequence of edits

Whatever is emitted into a definition is emitted by a few kinds of `Draft.Edit`: words are staged,
reserved or copied, a closed branch is patched, locals are saved or read, registers are announced as
overwritten, and something is noted that concerns neither locals nor registers.  `Action.edits` says
so of every action but the assignment of a local.  A property of definitions that no edit breaks is
thus kept by all of them.
-/

namespace ForthJit

/-- The instruction loads or stores relative to the stack pointer. -/
def Instruction.isStackAccess : Instruction → Bool
  | load _ rn _ | store _ rn _ | indexed _ _ rn _ | pair _ _ _ rn _ => rn = .sp
  | _ => false

/-- The word loads or stores relative to the stack pointer. -/
def isStackAccess (w : InstrWord) : Bool :=
  w.extractLsb' 27 1 == 1#1 && w.extractLsb' 25 1 == 0#1 &&
    !(w.extractLsb' 27 3 == 3#3 && w.extractLsb' 24 2 == 0#2) && w.extractLsb' 5 5 == 31#5

theorem Instruction.isStackAccess_encode (i : Instruction) :
    ForthJit.isStackAccess i.encode = i.isStackAccess := by
  have base : ∀ r : Reg, (r.code == 31#5) = decide (r = .sp) := by
    rintro ⟨code⟩
    simp only [Reg.mk.injEq, Reg.sp, Reg.ofNat]
    revert code
    decide
  rcases i with ⟨_ | _ | _⟩ | _ | _ | ⟨_ | _ | _ | _ | _ | _ | _ | _ | _⟩ | _ | _ | _ | _ | _ |
    ⟨_ | _ | _ | _⟩ | _ | ⟨_ | _ | _ | _⟩ | _ | _ | _ | _ | _ | _ | _ | _ | _ | _
  case ret | nop => rfl
  all_goals
    simp (disch := omega) only [ForthJit.isStackAccess, encode, WideMove.opcode, AluOp.opcode,
      Indexed.opcode, PairOp.opcode, BitVec.extractLsb'_append_eq_of_le,
      BitVec.extractLsb'_append_eq_of_add_le, BitVec.ofNat_eq_ofNat]
  case load | store | indexed.loadAfter | indexed.loadBefore | indexed.storeAfter |
      indexed.storeBefore | pair.storeBefore | pair.store | pair.loadAfter | pair.load =>
    simp [isStackAccess, base]
  all_goals rfl

/-! ## Edits -/

/-- A basic step of emission.  Words that were not made here are in `foreign`, and registers are
announced in sets that are `allowed`. -/
inductive Draft.Edit (foreign : InstrWord → Prop) (allowed : RegSet → Prop) : Draft → Draft → Prop
  | stage (d : Draft) {i : Instruction} : i.isStackAccess = false →
      Edit foreign allowed d (d.stage [i.encode])
  | reserve (d : Draft) (p : Placeholder) : Edit foreign allowed d (d.stage [p.word])
  | copy (d : Draft) {ws : List InstrWord} : (∀ v ∈ ws, foreign v) →
      Edit foreign allowed d (d.stage ws)
  | patch (d : Draft) (index : Nat) {i : Instruction} : i.isStackAccess = false →
      Edit foreign allowed d (d.replace index i.encode)
  | spill (d : Draft) (regs : RegSet) : Edit foreign allowed d (Emit.spilled regs d)
  | announce (d : Draft) {regs : RegSet} : allowed regs → Edit foreign allowed d
      { d with word := { d.word with clobbered := d.word.clobbered.union regs } }
  | read (d : Draft) (id index : Nat) (target : Reg) : Edit foreign allowed d
      { d with word :=
        { d.word with locals := d.word.locals.modify id (·.recordRead index target) } }
  | note (d : Draft) {w : Definition} : w.start = d.word.start → w.locals = d.word.locals →
      w.clobbered = d.word.clobbered → Edit foreign allowed d { d with word := w }

/-- Basic steps one after the other. -/
abbrev Draft.Edits (foreign : InstrWord → Prop) (allowed : RegSet → Prop) : Draft → Draft → Prop :=
  Relation.ReflTransGen (Edit foreign allowed)

/-- What is kept by every edit is kept by all. -/
theorem Draft.Edits.keeps {foreign : InstrWord → Prop} {allowed : RegSet → Prop} {d d' : Draft}
    {I : Draft → Prop} (edits : d.Edits foreign allowed d')
    (each : ∀ {d d' : Draft}, d.Edit foreign allowed d' → I d → I d') (holds : I d) : I d' := by
  induction edits with
  | refl => exact holds
  | tail _ last ih => exact each last ih

/-- The registers that are announced for values are allowed.  Under the register convention these
are the first ones. -/
structure Allows (allowed : RegSet → Prop) (settings : Settings) : Prop where
  value : ∀ n, (settings.convention = .register → n < maxValues) →
    allowed (.singleton (.ofNat n))
  transfer : allowed (.singleton .transfer)
  scratch : allowed (.singleton .scratch)
  callerSaved : allowed .callerSaved

namespace Emit

variable {α β : Type} {foreign : InstrWord → Prop} {allowed : RegSet → Prop} {settings : Settings}
  {m : Emit α} {f : α → Emit β} {d d' : Draft}

/-- If `m` succeeds it has made a sequence of edits. -/
abbrev Edits (foreign : InstrWord → Prop) (allowed : RegSet → Prop) (settings : Settings)
    (m : Emit α) : Prop :=
  Moves (Draft.Edits foreign allowed) settings m

namespace Edits

theorem emit {i : Instruction} (free : i.isStackAccess = false) :
    Edits foreign allowed settings (emit i) :=
  .emitWord fun d => .single (.stage d free)

theorem placeholder (p : Placeholder) : Edits foreign allowed settings (placeholder p) :=
  .emitWord fun d => .single (.reserve d p)

theorem copy {ws : List InstrWord} (each : ∀ v ∈ ws, foreign v) :
    Edits foreign allowed settings (onHeap (CodeHeap.emitAll ws)) :=
  .emitWords fun d => .single (.copy d each)

theorem setDepth (n : Nat) : Edits foreign allowed settings (setDepth n) :=
  .modifyWord fun d => .single (.note d rfl rfl rfl)

theorem pushPatch (p : PendingPatch) : Edits foreign allowed settings (pushPatch p) :=
  .modifyWord fun d => .single (.note d rfl rfl rfl)

theorem forM {γ : Type} {g : γ → Emit PUnit} {xs : List γ}
    (each : ∀ x ∈ xs, Edits foreign allowed settings (g x)) :
    Edits foreign allowed settings (xs.forM g) := by
  induction xs with
  | nil => exact .pure _
  | cons x xs ih =>
    exact .bind (each x List.mem_cons_self) fun _ =>
      ih fun y member => each y (List.mem_cons_of_mem _ member)

end Edits

theorem clobber_edits {regs : RegSet} (fine : allowed regs) :
    Edits foreign allowed settings (clobber regs) :=
  .bind (.spill fun d => .single (.spill d regs)) fun _ =>
    .modifyWord fun d => .single (.announce d fine)

theorem moves_edits {reg : Reg} {value : Cell} {limit : Nat} {moves : List Instruction}
    (found : Constant.moves? reg value limit = some moves) :
    Edits foreign allowed settings (emitAll moves) := by
  have free : ∀ i ∈ moves, i.isStackAccess = false := by
    intro i member
    obtain ⟨op, imm, hw, rfl⟩ := Constant.mem_moves? found member
    rfl
  intro d _ d' ok
  obtain rfl := emitWords_ok ok
  clear found ok
  induction moves generalizing d with
  | nil => exact (Draft.stage_nil d).symm ▸ .refl
  | cons i rest ih =>
    have tail := ih (fun j member => free j (List.mem_cons_of_mem _ member)) (d.stage [i.encode])
    rw [Draft.stage_stage] at tail
    exact .head (.stage d (free i List.mem_cons_self)) tail

theorem loadImmediate_edits {reg : Reg} (fine : allowed (.singleton reg)) (value : Cell) :
    Edits foreign allowed settings (loadImmediate reg value) := by
  refine .bind (clobber_edits fine) fun _ => .bind .read fun s => ?_
  split
  · next found => exact moves_edits found
  · exact .bind (Edits.placeholder _) fun _ => .bind (Edits.pushPatch _) fun _ =>
      .modifyWord fun d => .single (.note d rfl rfl rfl)

theorem callWord_edits (entry : Nat) : Edits foreign allowed settings (callWord entry) :=
  .bind .here fun _ => .byAssembled fun _ made => by
    obtain ⟨words, rfl, -⟩ := Asm.bl_ok made
    exact .bind (Edits.emit rfl) fun _ => .modifyWord fun d => .single (.note d rfl rfl rfl)

theorem callAddress_edits (fine : allowed (.singleton .scratch)) (address : Nat)
    (throughSlot : Bool) : Edits foreign allowed settings (callAddress address throughSlot) := by
  have last : Edits foreign allowed settings (do
      let _ ← emit (.callReg .scratch)
      modifyWord fun w => { w with leaf := false }) :=
    .bind (Edits.emit rfl) fun _ => .modifyWord fun d => .single (.note d rfl rfl rfl)
  refine .bind (loadImmediate_edits fine _) fun _ => ?_
  dsimp only
  split
  · refine .byAssembled fun _ made => ?_
    obtain ⟨offset, -, rfl⟩ := except_map_eq_ok.1 made
    exact .bind (Edits.emit rfl) fun _ => last
  · exact last

theorem raiseIfNonzero_edits (reg : Reg) : Edits foreign allowed settings (raiseIfNonzero reg) :=
  .bind (Edits.placeholder _) fun _ => .bind (Edits.pushPatch _) fun _ =>
    .modifyWord fun d => .single (.note d rfl rfl rfl)

theorem readLocal_edits (id : Nat) {target : Reg} (fine : allowed (.singleton target)) :
    Edits foreign allowed settings (readLocal id target) := by
  refine .bind .word fun w => ?_
  split
  · exact .pure _
  · split
    · exact .throw _
    · exact .pure _
    · exact .bind (clobber_edits fine) fun _ => .bind (Edits.emit rfl) fun _ => .pure _
    · exact .bind (clobber_edits fine) fun _ => .bind (Edits.placeholder _) fun index =>
        .modifyWord fun d => .single (.read d id index target)

/-! ## Values between words -/

theorem push_edits (reg : Reg) : Edits foreign allowed settings (push reg) :=
  .byAssembled fun _ made => by
    obtain ⟨offset, -, rfl⟩ := except_map_eq_ok.1 made
    exact .bind (Edits.emit rfl) fun _ => .pure _

theorem pop_edits {reg : Reg} (fine : allowed (.singleton reg)) :
    Edits foreign allowed settings (pop reg) :=
  .bind (clobber_edits fine) fun _ => .byAssembled fun _ made => by
    obtain ⟨offset, -, rfl⟩ := except_map_eq_ok.1 made
    exact .bind (Edits.emit rfl) fun _ => .pure _

theorem increment_edits : Edits foreign allowed settings (do setDepth ((← depth) + 1)) :=
  .bind .depth fun _ => Edits.setDepth _

theorem produce_edits (reg : Reg) : Edits foreign allowed settings (produce reg) := by
  refine .byConvention ?_
  cases settings.convention with
  | register => exact increment_edits
  | stack => exact .bind (push_edits reg) fun _ => increment_edits

theorem consume_edits (allows : Allows allowed settings) (what : String) :
    Edits foreign allowed settings (consume what) := by
  refine .bind .depth fun depth => ?_
  dsimp only
  split
  · exact .throw _
  · refine .byConvention ?_
    cases settings.convention with
    | register => exact .bind (Edits.setDepth _) fun _ => .pure _
    | stack =>
      exact .bind (pop_edits allows.transfer) fun _ => .bind (Edits.setDepth _) fun _ => .pure _

/-- To set a local is to declare it, to take a value, which is a sequence of edits, and to bind
it. -/
theorem setLocal_edits (foreign : InstrWord → Prop) (allows : Allows allowed settings)
    {name : String} (done : setLocal name settings d = .ok () d') :
    ∃ reg d1, Draft.Edits foreign allowed
        { d with word := { d.word with locals := (d.word.locals.declare name).2 } } d1 ∧
      d' = { d1 with word := { d1.word with
        locals := d1.word.locals.modify (d.word.locals.declare name).1 (·.assign reg) } } := by
  obtain ⟨reg, d1, consumed, assigned⟩ :=
    bind_ok.1 (tail_of (tail_of (tail_of done rfl :) rfl :) rfl :)
  cases assigned
  exact ⟨reg, d1, consume_edits allows _ _ _ _ consumed, rfl⟩

theorem gatherOutputs_edits (count : Nat) :
    Edits foreign allowed settings (gatherOutputs count) := by
  refine .byConvention ?_
  cases settings.convention with
  | register => exact .pure _
  | stack => exact Edits.forM fun _ _ => push_edits _

variable {callee : Entry}

section

variable (allows : Allows allowed settings)

include allows

theorem spreadInputs_edits (count : Nat) :
    Edits foreign allowed settings (spreadInputs count) := by
  refine .byConvention ?_
  cases convention : settings.convention with
  | register => exact .pure _
  | stack =>
    exact Edits.forM fun i _ =>
      pop_edits (allows.value i fun other => by cases convention.symm.trans other)

/-- The register of the next value may be announced. -/
theorem produced_edits {f : Reg → Emit β}
    (next : ∀ reg, allowed (.singleton reg) → Edits foreign allowed settings (f reg)) (n : Nat) :
    Edits foreign allowed settings (arity (settings.convention.produceReg n) >>= f) := by
  intro d b d' ok
  obtain ⟨reg, d1, produced, rest⟩ := bind_ok.1 ok
  cases convention : settings.convention with
  | stack =>
    rw [convention] at produced
    cases produced
    exact next .transfer allows.transfer d b d' rest
  | register =>
    rw [convention] at produced
    by_cases free : n < maxValues
    · rw [Convention.produceReg, if_pos free] at produced
      cases produced
      exact next (.ofNat n) (allows.value n fun _ => free) d b d' rest
    · rw [Convention.produceReg, if_neg free] at produced
      cases produced

theorem literal_edits (value : Cell) :
    Edits foreign allowed settings (literal value) :=
  .byConvention (.bind .depth fun _ => produced_edits allows (fun _ fine =>
    .bind (loadImmediate_edits fine value) fun _ => produce_edits _) _)

theorem getLocalCalled_edits (name : String) :
    Edits foreign allowed settings (getLocalCalled name) := by
  refine .bind .word fun w => ?_
  split
  · exact .byConvention (.bind .depth fun _ => produced_edits allows (fun _ fine =>
      .bind (readLocal_edits _ fine) fun _ => produce_edits _) _)
  · exact .throw _

theorem exposeError_edits (reg : Reg) :
    Edits foreign allowed settings (exposeError reg) := by
  refine .byConvention ?_
  cases convention : settings.convention with
  | register =>
    refine .bind .depth fun depth => ?_
    rw [← convention]
    refine produced_edits allows (fun target fine => ?_) depth
    dsimp only
    split
    · exact .bind (clobber_edits fine) fun _ => .bind (Edits.emit rfl) fun _ => Edits.setDepth _
    · exact Edits.setDepth _
  | stack =>
    refine .bind (push_edits reg) fun _ => ?_
    dsimp only
    split
    · exact .bind (Edits.emit rfl) fun _ => increment_edits
    · exact increment_edits

theorem checkError_edits (reg : Reg) :
    Edits foreign allowed settings (checkError reg) := by
  refine .bind .word fun w => ?_
  split
  · exact raiseIfNonzero_edits reg
  · exact exposeError_edits allows reg

variable (fine : ∀ code, callee.kind = .compiled code →
  allowed (callee.clobbers.union (.range 0 callee.outputs)) ∧
    allowed (callee.clobbers.insert .transfer))

include fine

theorem callEntry_edits : Edits foreign allowed settings (callEntry callee) := by
  have platform : ∀ (address : Nat) (throughSlot : Bool), Edits foreign allowed settings (do
      spreadInputs callee.inputs
      clobber .callerSaved
      callAddress address throughSlot
      gatherOutputs callee.outputs
      return .ofNat 1 : Emit Reg) := fun address throughSlot =>
    .bind (spreadInputs_edits allows _) fun _ => .bind (clobber_edits allows.callerSaved) fun _ =>
      .bind (callAddress_edits allows.scratch address throughSlot) fun _ =>
        .bind (gatherOutputs_edits _) fun _ => .pure _
  refine .byConvention ?_
  cases settings.convention with
  | register =>
    dsimp only
    split
    · next code kind =>
      exact .bind (clobber_edits (fine code kind).1) fun _ => .bind (callWord_edits _) fun _ =>
        .pure _
    all_goals
      exact .bind (clobber_edits allows.callerSaved) fun _ =>
        .bind (callAddress_edits allows.scratch _ _) fun _ => .pure _
  | stack =>
    dsimp only
    split
    · next code kind =>
      exact .bind (clobber_edits (fine code kind).2) fun _ => .bind (callWord_edits _) fun _ =>
        .pure _
    all_goals exact platform _ _

theorem call_edits : Edits foreign allowed settings (call callee) := by
  refine .bind .depth fun depth => .byConvention (.bind (.arity _) fun _ =>
    .bind (callEntry_edits allows fine) fun reg => .bind (Edits.setDepth _) fun _ => ?_)
  split
  · exact checkError_edits allows reg
  · exact .pure _

end

theorem inlineBody_edits {body : List InstrWord} (fine : allowed callee.clobbers)
    (each : ∀ v ∈ body, foreign v) : Edits foreign allowed settings (inlineBody callee body) :=
  .bind .depth fun _ => .byConvention (.bind (.arity _) fun _ => .bind (clobber_edits fine) fun _ =>
    .bind (Edits.copy each) fun _ => Edits.setDepth _)

theorem instruction_edits {v : InstrWord} {clobbers : RegSet} (fine : allowed clobbers)
    (isForeign : foreign v) : Edits foreign allowed settings (instruction v clobbers) :=
  .bind (clobber_edits fine) fun _ =>
    .emitWord fun d => .single (.copy d (List.forall_mem_singleton.2 isForeign))

theorem primitiveBody_edits (allows : Allows allowed settings) (inputs outputs : Nat)
    {clobbers : RegSet} {body : List InstrWord} (fine : allowed clobbers)
    (each : ∀ v ∈ body, foreign v) :
    Edits foreign allowed settings (primitiveBody inputs outputs clobbers body) :=
  .bind (spreadInputs_edits allows _) fun _ => .bind (clobber_edits fine) fun _ =>
    .bind (Edits.copy each) fun _ => .bind (gatherOutputs_edits _) fun _ => Edits.setDepth _

/-! ## Branches -/

theorem branching_edits : Branching (Draft.Edits foreign allowed) where
  reserve d p := .single (.reserve d p)
  branch d index _ := .single (.patch d index rfl)
  branchZero d index _ _ := .single (.patch d index rfl)
  spill d regs := .single (.spill d regs)
  note d _ _ _ _ _ _ _ := .single (.note d rfl rfl rfl)

end Emit

/-! ## Actions -/

namespace Action

/-- The registers that the action or its callee names are `allowed`. -/
def Names (allowed : RegSet → Prop) : Action → Prop
  | instruction _ clobbers | primitive _ _ clobbers _ => allowed clobbers
  | call _ callee => ∀ code, callee.kind = .compiled code →
      allowed (callee.clobbers.union (.range 0 callee.outputs)) ∧
        allowed (callee.clobbers.insert .transfer)
  | inline _ callee _ => allowed callee.clobbers
  | _ => True

/-- Every action but the assignment of a local is a sequence of edits. -/
theorem edits {foreign : InstrWord → Prop} {allowed : RegSet → Prop} {settings : Settings}
    {a : Action} (allows : Allows allowed settings) (copies : a.Copies foreign)
    (names : a.Names allowed) (other : ∀ name, a ≠ .setLocal name) :
    Emit.Edits foreign allowed settings a.emit := by
  cases a with
  | literal value => exact Emit.literal_edits allows value
  | setLocal name => exact absurd rfl (other name)
  | getLocal name => exact Emit.getLocalCalled_edits allows name
  | instruction v clobbers => exact .bind (Emit.instruction_edits names copies) fun _ => .pure _
  | primitive inputs outputs clobbers body =>
    exact Emit.primitiveBody_edits allows inputs outputs names copies
  | call id callee => exact Emit.call_edits allows names
  | inline id callee body => exact Emit.inlineBody_edits names copies
  | ifPart => exact Emit.branching_edits.ifPart (Emit.consume_edits allows _)
  | elsePart => exact Emit.branching_edits.elsePart
  | thenPart => exact Emit.branching_edits.thenPart
  | exit => exact Emit.branching_edits.exit
  | raise => exact .bind (Emit.consume_edits allows _) fun _ => Emit.raiseIfNonzero_edits _
  | recurse => exact Emit.branching_edits.recurse (Emit.clobber_edits allows.callerSaved)

end Action

end ForthJit
