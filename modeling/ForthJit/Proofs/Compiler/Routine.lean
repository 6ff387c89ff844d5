import ForthJit.Compiler.Body
import ForthJit.Compiler.Control
import ForthJit.Compiler.Layout
import ForthJit.Compiler.Primitive
import ForthJit.Proofs.Machine.Final
import ForthJit.Proofs.Outcome

/-!
# What all emission has in common

The functions that move values and make calls are put together from a few others: registers are
given up, instructions staged, values counted.  Many properties of emission hold of those few and
are kept by sequencing.  `Emit.Routine`, `Emit.Counting` and `Emit.Laying` list what has to be shown
of such a property; that it then holds of moving values, of calls and of what a layout adds is shown
here once for all of them.
-/

namespace ForthJit.Emit

/-- A property that sequencing keeps, of everything that stages code. -/
structure Routine (R : ∀ {α : Type}, Emit α → Prop) : Prop where
  pure : ∀ {α : Type} (a : α), R (pure a : Emit α)
  bind : ∀ {α β : Type} {m : Emit α} {f : α → Emit β}, R m → (∀ a, R (f a)) → R (m >>= f)
  convention : R convention
  here : R here
  assembled : ∀ {α β : Type} {result : Except EncodeError α} {f : α → Emit β},
    (∀ a, result = .ok a → R (f a)) → R (assembled result >>= f)
  emit : ∀ {i : Instruction}, i.isTrap = false → R (emit i)
  clobber : ∀ regs, R (clobber regs)
  loadImmediate : ∀ reg value, R (loadImmediate reg value)
  leave : R (modifyWord fun w => { w with leaf := false })

namespace Routine

variable {R : ∀ {α : Type}, Emit α → Prop} (routine : Routine @R)

include routine

theorem forM {β : Type} {f : β → Emit PUnit} (each : ∀ x, R (f x)) (xs : List β) :
    R (xs.forM f) := by
  induction xs with
  | nil => exact routine.pure _
  | cons x xs ih => exact routine.bind (each x) fun _ => ih

/-- What was assembled is staged. -/
theorem stage {β : Type} {γ : Type} {build : γ → Instruction} {fields : Except EncodeError γ}
    (other : ∀ c, (build c).isTrap = false) {f : Nat → Emit β} (next : ∀ n, R (f n)) :
    R (Emit.assembled (fields.map build) >>= fun i => Emit.emit i >>= f) :=
  routine.assembled fun _ made =>
    routine.bind (routine.emit (Instruction.isTrap_of_map other made)) next

theorem callWord (entry : Nat) : R (callWord entry) :=
  routine.bind routine.here fun _ => routine.stage (fun _ => rfl) fun _ => routine.leave

theorem callAddress (address : Nat) (throughSlot : Bool) : R (callAddress address throughSlot) := by
  have last : R (do
      let _ ← Emit.emit (.callReg .scratch)
      modifyWord fun w => { w with leaf := false }) :=
    routine.bind (routine.emit rfl) fun _ => routine.leave
  refine routine.bind (routine.loadImmediate _ _) fun _ => ?_
  dsimp only
  split
  · exact routine.stage (fun _ => rfl) fun _ => last
  · exact last

theorem push (reg : Reg) : R (push reg) := routine.stage (fun _ => rfl) fun _ => routine.pure _

theorem pop (reg : Reg) : R (pop reg) :=
  routine.bind (routine.clobber _) fun _ => routine.stage (fun _ => rfl) fun _ => routine.pure _

theorem spreadInputs (count : Nat) : R (spreadInputs count) := by
  refine routine.bind routine.convention fun c => ?_
  cases c with
  | register => exact routine.pure _
  | stack => exact routine.forM (fun _ => routine.pop _) _

theorem gatherOutputs (count : Nat) : R (gatherOutputs count) := by
  refine routine.bind routine.convention fun c => ?_
  cases c with
  | register => exact routine.pure _
  | stack => exact routine.forM (fun _ => routine.push _) _

theorem callEntry (callee : Entry) : R (callEntry callee) := by
  have ofWord (regs : RegSet) (entry : Nat) (reg : Reg) : R (do
      Emit.clobber regs
      Emit.callWord entry
      return reg) :=
    routine.bind (routine.clobber _) fun _ => routine.bind (routine.callWord _) fun _ =>
      routine.pure _
  have ofAddress (address : Nat) (throughSlot : Bool) {m : Emit Reg} (rest : R m) : R (do
      Emit.clobber .callerSaved
      Emit.callAddress address throughSlot
      m) :=
    routine.bind (routine.clobber _) fun _ => routine.bind (routine.callAddress _ _) fun _ => rest
  refine routine.bind routine.convention fun c => ?_
  cases c with
  | register =>
    dsimp only
    split
    · exact ofWord _ _ _
    all_goals exact ofAddress _ _ (routine.pure _)
  | stack =>
    dsimp only
    split
    · exact ofWord _ _ _
    all_goals
      exact routine.bind (routine.spreadInputs _) fun _ => ofAddress _ _
        (routine.bind (routine.gatherOutputs _) fun _ => routine.pure _)

end Routine

/-- A property that counting values, looking at the definition and failing have too. -/
structure Counting (R : ∀ {α : Type}, Emit α → Prop) : Prop extends Routine @R where
  throw : ∀ {α : Type} (e : CompileError), R (throw e : Emit α)
  word : R word
  depth : R depth
  setDepth : ∀ n, R (setDepth n)
  readLocal : ∀ id target, R (readLocal id target)
  assignLocal : ∀ id reg, R (assignLocal id reg)

namespace Counting

variable {R : ∀ {α : Type}, Emit α → Prop} (counting : Counting @R)

include counting

theorem arity {α : Type} (result : Except ArityError α) : R (arity result) := by
  cases result with
  | ok a => exact counting.pure a
  | error e => exact counting.throw _

theorem increment : R (do Emit.setDepth ((← Emit.depth) + 1)) :=
  counting.bind counting.depth fun _ => counting.setDepth _

theorem produce (reg : Reg) : R (produce reg) := by
  refine counting.bind counting.convention fun c => ?_
  cases c with
  | register => exact counting.increment
  | stack => exact counting.bind (counting.push reg) fun _ => counting.increment

theorem consume (what : String) : R (consume what) := by
  refine counting.bind counting.depth fun depth => ?_
  dsimp only
  split
  · exact counting.throw _
  · refine counting.bind counting.convention fun c => ?_
    cases c with
    | register => exact counting.bind (counting.setDepth _) fun _ => counting.pure _
    | stack =>
      exact counting.bind (counting.pop _) fun _ => counting.bind (counting.setDepth _) fun _ =>
        counting.pure _

/-- A value is computed in the register that the convention names. -/
theorem produced {m : Reg → Emit Unit} (computes : ∀ reg, R (m reg)) : R (do
    let reg ← Emit.arity ((← Emit.convention).produceReg (← Emit.depth))
    m reg
    Emit.produce reg) :=
  counting.bind counting.convention fun _ => counting.bind counting.depth fun _ =>
    counting.bind (counting.arity _) fun reg => counting.bind (computes reg) fun _ =>
      counting.produce reg

theorem literal (value : Cell) : R (literal value) :=
  counting.produced (counting.loadImmediate · value)

theorem getLocal (id : Nat) : R (getLocal id) := counting.produced (counting.readLocal id)

theorem getLocalCalled (name : String) : R (getLocalCalled name) := by
  refine counting.bind counting.word fun w => ?_
  split
  · exact counting.getLocal _
  · exact counting.throw _

theorem bindLocal (id : Nat) : R (bindLocal id) :=
  counting.bind counting.word fun _ => counting.bind (counting.consume _) fun reg =>
    counting.assignLocal id reg

theorem inlineBody (callee : Entry) {body : List InstrWord}
    (copies : R (onHeap (CodeHeap.emitAll body))) : R (inlineBody callee body) :=
  counting.bind counting.depth fun _ => counting.bind counting.convention fun _ =>
    counting.bind (counting.arity _) fun _ => counting.bind (counting.clobber _) fun _ =>
      counting.bind copies fun _ => counting.setDepth _

theorem primitiveBody (inputs outputs : Nat) (clobbers : RegSet) {body : List InstrWord}
    (copies : R (onHeap (CodeHeap.emitAll body))) :
    R (primitiveBody inputs outputs clobbers body) :=
  counting.bind (counting.spreadInputs _) fun _ => counting.bind (counting.clobber _) fun _ =>
    counting.bind copies fun _ => counting.bind (counting.gatherOutputs _) fun _ =>
      counting.setDepth _

theorem exposeError (reg : Reg) : R (exposeError reg) := by
  refine counting.bind counting.convention fun c => ?_
  cases c with
  | register =>
    refine counting.bind counting.depth fun depth => counting.bind (counting.arity _) fun target =>
      ?_
    dsimp only
    split
    · exact counting.bind (counting.clobber _) fun _ => counting.bind (counting.emit rfl) fun _ =>
        counting.setDepth _
    · exact counting.setDepth _
  | stack =>
    refine counting.bind (counting.push reg) fun _ => ?_
    dsimp only
    split
    · exact counting.bind (counting.emit rfl) fun _ => counting.increment
    · exact counting.increment

section

variable (raises : ∀ reg, R (raiseIfNonzero reg))

include raises

theorem call (callee : Entry) : R (call callee) := by
  refine counting.bind counting.depth fun depth => counting.bind counting.convention fun _ =>
    counting.bind (counting.arity _) fun _ => counting.bind (counting.callEntry callee) fun reg =>
      counting.bind (counting.setDepth _) fun _ => ?_
  split
  · refine counting.bind counting.word fun w => ?_
    split
    · exact raises reg
    · exact counting.exposeError reg
  · exact counting.pure _

theorem raise : R raise := counting.bind (counting.consume _) fun reg => raises reg

end

end Counting

/-- A property that what follows the body of a word has too. -/
structure Laying (R : ∀ {α : Type}, Emit α → Prop) : Prop extends Routine @R where
  read : R read
  word : R word
  emitAll : ∀ is, R (emitAll is)
  emitLiteral : ∀ value, R (onHeap (CodeHeap.emitLiteral value))
  patch : ∀ index i, R (patch index i)
  settle : ∀ patches, R (modifyWord fun w => { w with patches })
  fail : ∀ {α : Type} (e : EncodeError), R (throw (.encode e) : Emit α)

namespace Laying

variable {R : ∀ {α : Type}, Emit α → Prop} (laying : Laying @R)

include laying

theorem emitExits (frame : Frame) (errorReg : Reg) (throws : Bool) :
    R (emitExits frame errorReg throws) :=
  laying.bind laying.here fun _ => laying.bind (laying.emitAll _) fun _ => laying.bind laying.here
    fun _ => laying.assembled fun _ _ => laying.bind (laying.emitAll _) fun _ =>
      laying.bind (laying.emit rfl) fun _ => laying.pure _

theorem emitStubs (errorReg : Reg) (errorPath : Nat) (regs : List Reg) :
    R (emitStubs errorReg errorPath regs) := by
  induction regs with
  | nil => exact laying.pure _
  | cons reg rest ih =>
    exact laying.bind (laying.emit rfl) fun _ => laying.bind laying.here fun _ =>
      laying.stage (fun _ => rfl) fun _ => laying.bind ih fun _ => laying.pure _

theorem emitLiterals (values : List Cell) : R (emitLiterals values) :=
  laying.bind laying.here fun _ => laying.bind (laying.emitAll _) fun _ => laying.bind laying.here
    fun _ => laying.bind (laying.forM (fun _ => laying.bind (laying.emitLiteral _) fun _ =>
      laying.pure _) _) fun _ => laying.pure _

theorem patchAll (patches : List (Nat × Instruction)) : R (patchAll patches) :=
  laying.forM (fun _ => laying.patch _ _) _

theorem fillPrologue (start : Nat) (frame : Frame) : R (fillPrologue start frame) :=
  laying.assembled fun _ _ => laying.bind (laying.patchAll _) fun _ => laying.pure _

theorem takePatches (targets : PatchTargets) : R (takePatches targets) := by
  refine laying.bind laying.word fun w => ?_
  split
  · exact laying.bind (laying.settle _) fun _ => laying.pure _
  · exact laying.bind (laying.settle _) fun _ => laying.fail _

/-- Once the body has been found complete, a layout has the property. -/
theorem layOut (throws : Bool) :
    ∃ rest, layOut throws = (checkFinished >>= fun _ => rest) ∧ R rest :=
  ⟨_, rfl, laying.bind laying.word fun _ => laying.bind laying.read fun _ =>
    laying.assembled fun _ _ =>
    laying.bind (laying.emitExits _ _ _) fun _ => laying.bind laying.here fun _ =>
      laying.bind (laying.emitStubs _ _ _) fun _ => laying.bind (laying.emitLiterals _) fun _ =>
        laying.bind laying.here fun _ => laying.bind (laying.fillPrologue _ _) fun _ =>
          laying.bind (laying.takePatches _) fun _ => laying.bind (laying.patchAll _) fun _ =>
            laying.bind (laying.patchAll _) fun _ => laying.pure _⟩

end Laying

end ForthJit.Emit
