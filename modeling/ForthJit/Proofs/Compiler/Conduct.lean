import ForthJit.Proofs.Compiler.Emission
import ForthJit.Proofs.Compiler.Routine

/-!
# The conduct of emission

Two kinds of properties of emission need only one of its outcomes.  `Emit.Technical` is about
failures: apart from the checks that an operation makes first, what is emitted fails only for want
of memory or because an operand is out of range.  `Emit.Moves R` is about successes, all of which
take the draft along `R`.  If `R` overlooks code and the notes about it, moving values and calling
words are such moves (`Emit.Overlooks`), and if it does not look at branches, these are
(`Emit.Branching`).
-/

namespace ForthJit

/-- There is no memory, or an operand is out of range. -/
def CompileError.isTechnical : CompileError → Bool
  | .memory _ | .encode _ => true
  | _ => false

theorem CompileError.of_technical {p : CompileError → Prop} (memory : ∀ e, p (.memory e))
    (encode : ∀ e, p (.encode e)) {e : CompileError} (technical : e.isTechnical = true) : p e := by
  cases e with
  | memory e => exact memory e
  | encode e => exact encode e
  | _ => cases technical

namespace Emit

variable {α β : Type} {settings : Settings} {m : Emit α} {f : α → Emit β}

/-! ## Failures -/

/-- All failures of `m` are technical. -/
def Technical (m : Emit α) : Prop :=
  ∀ settings d e d', m settings d = .error e d' → e.isTechnical = true

namespace Technical

theorem bind (first : Technical m) (second : ∀ a, Technical (f a)) : Technical (m >>= f) := by
  intro settings d e d' error
  rcases bind_error error with failed | ⟨a, d1, -, failed⟩
  · exact first settings d e d' failed
  · exact second a settings d1 e d' failed

theorem pure (a : α) : Technical (pure a : Emit α) := fun _ _ _ _ error => by cases error

theorem read : Technical (read : Emit Settings) := fun _ _ _ _ error => by cases error

theorem get : Technical (get : Emit Draft) := fun _ _ _ _ error => by cases error

theorem convention : Technical convention := bind read fun _ => pure _

theorem word : Technical word := bind get fun _ => pure _

theorem here : Technical here := bind get fun _ => pure _

theorem depth : Technical depth := bind get fun _ => pure _

theorem modifyWord (g : Definition → Definition) : Technical (modifyWord g) :=
  fun _ _ _ _ error => by cases error

theorem throw {e : CompileError} (technical : e.isTechnical = true) :
    Technical (throw e : Emit α) := by
  intro settings d e' d' error
  cases error
  exact technical

theorem onHeap (operation : HeapM α) : Technical (onHeap operation) := by
  intro settings d e d' error
  unfold Emit.onHeap at error
  dsimp only at error
  split at error
  · cases error
  · cases error
    rfl

theorem assembled (result : Except EncodeError α) : Technical (assembled result) := by
  cases result with
  | ok a => exact pure a
  | error e => exact throw rfl

theorem spill (regs : RegSet) : Technical (spill regs) := by
  refine bind get fun d => bind (modifyWord _) fun _ => bind (onHeap _) fun _ => ?_
  split
  · exact pure _
  · exact throw rfl

theorem clobber (regs : RegSet) : Technical (clobber regs) :=
  bind (spill regs) fun _ => modifyWord _

theorem loadImmediate (reg : Reg) (value : Cell) : Technical (loadImmediate reg value) := by
  refine bind (clobber _) fun _ => bind read fun settings => ?_
  split
  · exact onHeap _
  · exact bind (onHeap _) fun _ => bind (modifyWord _) fun _ => modifyWord _

theorem laying : Laying @Technical where
  pure := pure
  bind := bind
  convention := convention
  here := here
  assembled := fun {_ _ result _} next => by
    cases result with
    | ok a => exact next a rfl
    | error e => exact throw rfl
  emit := fun _ => onHeap _
  clobber := clobber
  loadImmediate := loadImmediate
  leave := modifyWord _
  read := read
  word := word
  emitAll := fun _ => onHeap _
  emitLiteral := fun _ => onHeap _
  patch := fun _ _ => onHeap _
  settle := fun _ => modifyWord _
  fail := fun _ => throw rfl

theorem raiseIfNonzero (reg : Reg) : Technical (raiseIfNonzero reg) :=
  bind (onHeap _) fun _ => bind (modifyWord _) fun _ => modifyWord _

theorem increment : Technical (do setDepth ((← Emit.depth) + 1)) := bind depth fun _ => modifyWord _

theorem produce (reg : Reg) : Technical (produce reg) := by
  refine bind convention fun c => ?_
  cases c with
  | register => exact increment
  | stack => exact bind (laying.push reg) fun _ => increment

end Technical

/-- A layout fails because the body is not complete, or else for a technical reason. -/
theorem layOut_error {throws : Bool} {d d' : Draft} {e : CompileError}
    (error : layOut throws settings d = .error e d') :
    checkFinished settings d = .error e d' ∨ e.isTechnical = true := by
  obtain ⟨rest, split, technical⟩ := Technical.laying.layOut throws
  rw [split] at error
  exact (bind_error error).imp_right fun ⟨_, d1, _, failed⟩ => technical settings d1 e d' failed

/-! ## Successes -/

/-- A success of `m` takes the draft along `R`. -/
def Moves (R : Draft → Draft → Prop) (settings : Settings) (m : Emit α) : Prop :=
  ∀ d a d', m settings d = .ok a d' → R d d'

namespace Moves

variable {R : Draft → Draft → Prop}

/-- What comes next may rely on what has been found. -/
theorem look (same : ∀ d a d', m settings d = .ok a d' → d' = d)
    (next : ∀ d a, m settings d = .ok a d → Moves R settings (f a)) :
    Moves R settings (m >>= f) := by
  intro d b d' ok
  obtain ⟨a, d1, done, rest⟩ := bind_ok.1 ok
  obtain rfl := same d a d1 done
  exact next d1 a done d1 b d' rest

/-- What comes next depends on the convention. -/
theorem byConvention {f : Convention → Emit β} (next : Moves R settings (f settings.convention)) :
    Moves R settings (convention >>= f) := by
  refine look (fun _ _ _ ok => by cases ok; rfl) fun d c ok => ?_
  cases ok
  exact next

theorem byAssembled {result : Except EncodeError α}
    (next : ∀ a, result = .ok a → Moves R settings (f a)) :
    Moves R settings (Emit.assembled result >>= f) :=
  look (fun _ _ _ ok => (assembled_ok_iff.1 ok).2) fun _ a ok => next a (assembled_ok_iff.1 ok).1

theorem throw (e : CompileError) : Moves R settings (throw e : Emit α) :=
  fun _ _ _ ok => by cases ok

theorem emitWord {w : InstrWord} (stage : ∀ d, R d (d.stage [w])) :
    Moves R settings (emitWord w) := by
  intro d _ d' ok
  obtain ⟨-, rfl⟩ := emitWord_ok ok
  exact stage d

theorem emitWords {ws : List InstrWord} (stage : ∀ d, R d (d.stage ws)) :
    Moves R settings (onHeap (CodeHeap.emitAll ws)) := by
  intro d _ d' ok
  obtain rfl := emitWords_ok ok
  exact stage d

theorem patch {index : Nat} {i : Instruction} (replace : ∀ d, R d (d.replace index i.encode)) :
    Moves R settings (patch index i) := by
  intro d _ d' ok
  obtain ⟨-, rfl⟩ := patch_ok ok
  exact replace d

theorem spill {regs : RegSet} (spilled : ∀ d, R d (spilled regs d)) :
    Moves R settings (spill regs) := by
  intro d _ d' ok
  obtain ⟨-, rfl⟩ := spill_ok ok
  exact spilled d

theorem modifyWord {g : Definition → Definition}
    (note : ∀ d : Draft, R d { d with word := g d.word }) : Moves R settings (modifyWord g) := by
  intro d a d' ok
  cases ok
  exact note d

variable [IsPreorder Draft R]

theorem bind (first : Moves R settings m) (second : ∀ a, Moves R settings (f a)) :
    Moves R settings (m >>= f) := by
  intro d b d' ok
  obtain ⟨a, d1, done, rest⟩ := bind_ok.1 ok
  exact IsTrans.trans _ _ _ (first d a d1 done) (second a d1 b d' rest)

theorem of_same (same : ∀ d a d', m settings d = .ok a d' → d' = d) : Moves R settings m := by
  intro d a d' ok
  obtain rfl := same d a d' ok
  exact refl d'

theorem pure (a : α) : Moves R settings (pure a : Emit α) :=
  of_same fun _ _ _ ok => by cases ok; rfl

theorem read : Moves R settings (read : Emit Settings) := of_same fun _ _ _ ok => by cases ok; rfl

theorem convention : Moves R settings convention := of_same fun _ _ _ ok => by cases ok; rfl

theorem word : Moves R settings word := of_same fun _ _ _ ok => by cases ok; rfl

theorem here : Moves R settings here := of_same fun _ _ _ ok => by cases ok; rfl

theorem depth : Moves R settings depth := of_same fun _ _ _ ok => by cases ok; rfl

theorem arity (result : Except ArityError α) : Moves R settings (arity result) := by
  cases result with
  | ok a => exact pure a
  | error e => exact throw _

end Moves

/-- `R` holds whatever code is staged and whatever is noted about it. -/
structure Overlooks (R : Draft → Draft → Prop) : Prop where
  stage : ∀ d ws, R d (d.stage ws)
  note : ∀ (d : Draft) locals clobbered patches pcRelative leaf,
    R d { d with word := { d.word with locals, clobbered, patches, pcRelative, leaf } }

namespace Overlooks

variable {R : Draft → Draft → Prop} (overlooks : Overlooks R)

include overlooks

theorem pushPatch (p : PendingPatch) : Moves R settings (pushPatch p) :=
  .modifyWord fun d => overlooks.note d ..

variable [IsPreorder Draft R]

theorem spill (regs : RegSet) : Moves R settings (spill regs) :=
  .spill fun d => IsTrans.trans _ _ _ (overlooks.note d (spilling regs d).locals d.word.clobbered
    d.word.patches d.word.pcRelative d.word.leaf) (overlooks.stage _ _)

theorem clobber (regs : RegSet) : Moves R settings (clobber regs) :=
  .bind (overlooks.spill regs) fun _ => .modifyWord fun d => overlooks.note d ..

theorem loadImmediate (reg : Reg) (value : Cell) : Moves R settings (loadImmediate reg value) := by
  refine .bind (overlooks.clobber _) fun _ => .bind .read fun s => ?_
  split
  · exact .emitWords fun d => overlooks.stage d _
  · exact .bind (.emitWord fun d => overlooks.stage d _) fun _ =>
      .bind (overlooks.pushPatch _) fun _ => .modifyWord fun d => overlooks.note d ..

theorem readLocal (id : Nat) (target : Reg) : Moves R settings (readLocal id target) := by
  refine .bind .word fun w => ?_
  split
  · exact .pure _
  · split
    · exact .throw _
    · exact .pure _
    · exact .bind (overlooks.clobber _) fun _ =>
        .bind (.emitWord fun d => overlooks.stage d _) fun _ => .pure _
    · exact .bind (overlooks.clobber _) fun _ =>
        .bind (.emitWord fun d => overlooks.stage d _) fun _ =>
        .modifyWord fun d => overlooks.note d ..

theorem routine : Routine fun {_} m => Moves R settings m where
  pure := .pure
  bind := .bind
  convention := .convention
  here := .here
  assembled := .byAssembled
  emit := fun _ => .emitWord fun d => overlooks.stage d _
  clobber := overlooks.clobber
  loadImmediate := overlooks.loadImmediate
  leave := .modifyWord fun d => overlooks.note d ..

end Overlooks

/-- `R` holds whatever branches are opened and closed. -/
structure Branching (R : Draft → Draft → Prop) : Prop where
  reserve : ∀ d (p : Placeholder), R d (d.stage [p.word])
  branch : ∀ d index v, R d (d.replace index (Instruction.branch v).encode)
  branchZero : ∀ d index reg v, R d (d.replace index (Instruction.branchZero reg v).encode)
  spill : ∀ d regs, R d (spilled regs d)
  note : ∀ (d : Draft) patches depth control unreachable leaf hasBranches earlyReturn,
    R d { d with word :=
      { d.word with patches, depth, control, unreachable, leaf, hasBranches, earlyReturn } }

namespace Branching

variable {R : Draft → Draft → Prop} (branching : Branching R)

include branching

theorem join (first second : Option Nat) : Moves R settings (join first second) := by
  unfold Emit.join
  split
  · dsimp only
    split
    · exact .throw _
    · exact .modifyWord fun d => branching.note d ..
  all_goals exact .modifyWord fun d => branching.note d ..

variable [IsPreorder Draft R]

theorem reserved {p : Placeholder} {f : Nat → Emit β} (next : ∀ n, Moves R settings (f n)) :
    Moves R settings (placeholder p >>= f) :=
  .bind (.emitWord fun d => branching.reserve d p) next

theorem patchOver {index : Nat} {reg : Reg} {words : Int} (rest : Moves R settings m) :
    Moves R settings (do patch index (← assembled (Asm.cbz reg words)); m) :=
  .byAssembled fun _ made => by
    obtain ⟨v, -, rfl⟩ := except_map_eq_ok.1 made
    exact .bind (.patch fun d => branching.branchZero d index reg v) fun _ => rest

theorem ifPart (consumes : Moves R settings (consume "if")) : Moves R settings ifPart :=
  .bind consumes fun _ => .bind (.spill fun d => branching.spill d _) fun _ => branching.reserved
    fun _ => .modifyWord fun d => branching.note d ..

theorem elsePart : Moves R settings elsePart := by
  refine .bind .word fun w => ?_
  split
  · exact .bind (.modifyWord fun d => branching.note d ..) fun _ =>
      .bind (.spill fun d => branching.spill d _) fun _ => .bind .word fun _ => branching.reserved
        fun _ => .bind .here fun _ => branching.patchOver (.modifyWord fun d => branching.note d ..)
  · exact .throw _

theorem thenPart : Moves R settings thenPart := by
  refine .bind .word fun w => ?_
  split
  · exact .throw _
  · next frame outer _ =>
    refine .bind (.modifyWord fun d => branching.note d ..) fun _ =>
      .bind (.spill fun d => branching.spill d _) fun _ => .bind .here fun _ =>
        .bind .word fun _ => ?_
    cases frame with
    | ifPart branch reg depth => exact branching.patchOver (branching.join _ _)
    | elsePart index depth trueDepth =>
      refine .byAssembled fun _ made => ?_
      obtain ⟨v, -, rfl⟩ := except_map_eq_ok.1 made
      exact .bind (.patch fun d => branching.branch d index v) fun _ => branching.join _ _

theorem exit : Moves R settings exit := by
  have leave : Moves R settings (do
      let index ← placeholder .returnBranch
      pushPatch (.exit index)
      modifyWord fun w =>
        { w with earlyReturn := true, hasBranches := true, unreachable := true }) :=
    branching.reserved fun _ => .bind (.modifyWord fun d => branching.note d ..) fun _ =>
      .modifyWord fun d => branching.note d ..
  refine .bind .word fun w => ?_
  dsimp only
  split
  · exact leave
  · exact .bind (.throw _) fun _ => leave

theorem recurse (clobbers : Moves R settings (clobber .callerSaved)) : Moves R settings recurse :=
  .bind .word fun _ => .bind .convention fun _ => .bind (.arity _) fun _ => .bind clobbers fun _ =>
    branching.reserved fun _ => branching.reserved fun _ =>
      .bind (.modifyWord fun d => branching.note d ..) fun _ => .modifyWord fun d =>
        branching.note d ..

end Branching

end Emit

end ForthJit
