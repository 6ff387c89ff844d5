import ForthJit.Proofs.Compiler.Confined
import ForthJit.Proofs.Compiler.Emission
import ForthJit.Proofs.Definition.Advance

/-!
# Every placeholder is recorded

A placeholder that emission leaves behind is in the ledger of the definition, and emission patches
nothing else.  Between staging a placeholder and recording it, or between forgetting a branch and
patching it, there are placeholders that the definition does not name; `Emit.Logs` counts them
beside the ledger.
-/

namespace ForthJit

/-- `d'` is what the draft `d` becomes when more of its body is emitted.  Of the placeholders only
branches that are closed are replaced. -/
structure Draft.Advances (d d' : Draft) : Prop where
  word : d.word.Advances d'.word
  staged : Settles (· = .controlBranch) d.heap.staged d'.heap.staged

namespace Draft.Advances

variable {d d' d'' : Draft}

theorem refl (d : Draft) : d.Advances d := ⟨.refl _, .refl _⟩

theorem trans (first : d.Advances d') (second : d'.Advances d'') : d.Advances d'' :=
  ⟨first.word.trans second.word, first.staged.trans second.staged⟩

end Draft.Advances

/-- The placeholders of `d` are those of its ledger and `extra`, and what was inserted as `raw`. -/
def Draft.Logged (d : Draft) (raw : InstrWord → Prop) (extra : Slots) : Prop :=
  Ledger raw d.word.start d.heap.staged (d.word.slots ++ extra)

namespace Emit

variable {α β : Type} {raw : InstrWord → Prop} {extra extra' : Slots}

/-- A success of `m` leaves a definition that has only grown.  If beside its ledger there were the
placeholders `extra` before, there are those of `extra' a` afterwards, where `a` is the result. -/
def Logs (raw : InstrWord → Prop) (extra : Slots) (m : Emit α) (extra' : α → Slots) : Prop :=
  ∀ settings d a d', m settings d = .ok a d' → d.Logged raw extra → d.Advances d' ∧
    d'.Logged raw (extra' a)

namespace Logs

variable {m : Emit α} {f : α → Emit β} {mid : α → Slots} {last : β → Slots}

theorem of_same (same : ∀ settings d a d', m settings d = .ok a d' → d' = d) :
    Logs raw extra m fun _ => extra := by
  intro settings d a d' ok logged
  obtain rfl := same settings d a d' ok
  exact ⟨.refl d', logged⟩

theorem pure (a : α) : Logs raw extra (pure a) fun _ => extra :=
  of_same fun _ _ _ _ ok => by
    cases ok
    rfl

theorem throw (e : CompileError) : Logs raw extra (throw e : Emit α) mid :=
  fun _ _ _ _ ok => by cases ok

theorem bind (first : Logs raw extra m mid) (second : ∀ a, Logs raw (mid a) (f a) last) :
    Logs raw extra (m >>= f) last := by
  intro settings d b d' ok logged
  obtain ⟨a, d1, ok1, ok2⟩ := bind_ok.1 ok
  obtain ⟨advance1, logged1⟩ := first settings d a d1 ok1 logged
  obtain ⟨advance2, logged2⟩ := second a settings d1 b d' ok2 logged1
  exact ⟨advance1.trans advance2, logged2⟩

theorem read : Logs raw extra read fun _ => extra :=
  of_same fun _ _ _ _ ok => by
    cases ok
    rfl

/-- What is emitted next was assembled. -/
theorem assembled {result : Except EncodeError α}
    (next : ∀ a, result = .ok a → Logs raw extra (f a) last) :
    Logs raw extra (assembled result >>= f) last := by
  intro settings d b d' ok logged
  obtain ⟨a, made, ok2⟩ := assembled_bind ok
  exact next a made settings d b d' ok2 logged

theorem perm (logs : Logs raw extra m mid) {mid' : α → Slots} (same : ∀ a, (mid a).Perm (mid' a)) :
    Logs raw extra m mid' := by
  intro settings d a d' ok logged
  obtain ⟨advance, logged'⟩ := logs settings d a d' ok logged
  exact ⟨advance, logged'.perm ((same a).append_left _)⟩

end Logs

/-! ## Basic steps -/

theorem word_logs : Logs raw extra word fun _ => extra :=
  .of_same fun _ _ _ _ ok => by
    cases ok
    rfl

theorem here_logs : Logs raw extra here fun _ => extra :=
  .of_same fun _ _ _ _ ok => by
    cases ok
    rfl

theorem depth_logs : Logs raw extra depth fun _ => extra :=
  .of_same fun _ _ _ _ ok => by
    cases ok
    rfl

theorem modifyWord_logs {f : Definition → Definition}
    (advances : ∀ w : Definition, w.Advances (f w))
    (slots : ∀ w, (w.slots ++ extra).Perm ((f w).slots ++ extra')) :
    Logs raw extra (modifyWord f) fun _ => extra' := by
  intro settings d a d' ok logged
  cases ok
  refine ⟨⟨advances d.word, .refl _⟩, ?_⟩
  show Ledger raw (f d.word).start d.heap.staged ((f d.word).slots ++ extra')
  rw [(advances d.word).start]
  exact logged.perm (slots d.word)

/-- A change that does not show in the ledger. -/
theorem modifyWord_plain {f : Definition → Definition}
    (advances : ∀ w : Definition, w.Advances (f w)) (slots : ∀ w, (f w).slots = w.slots) :
    Logs raw extra (modifyWord f) fun _ => extra :=
  modifyWord_logs advances fun w => by rw [slots w]

theorem setDepth_logs (depth : Nat) : Logs raw extra (setDepth depth) fun _ => extra :=
  modifyWord_plain (fun w => { Definition.Advances.refl w with }) fun _ => rfl

theorem emitWord_logs {w : InstrWord} (final : Final w ∨ raw w) :
    Logs raw extra (emitWord w) fun _ => extra := by
  intro settings d i d' ok logged
  obtain ⟨rfl, rfl⟩ := emitWord_ok ok
  exact ⟨⟨.refl _, .append _ _⟩, logged.append fun v member => by
    obtain rfl := List.mem_singleton.1 member
    exact final⟩

theorem emit_logs {i : Instruction} (other : i.isTrap = false) :
    Logs raw extra (emit i) fun _ => extra :=
  emitWord_logs (Or.inl (Instruction.encode_final other))

theorem emitWords_logs {ws : List InstrWord} (final : ∀ w ∈ ws, Final w ∨ raw w) :
    Logs raw extra (onHeap (CodeHeap.emitAll ws)) fun _ => extra := by
  intro settings d _ d' ok logged
  obtain rfl := emitWords_ok ok
  exact ⟨⟨.refl _, .append _ _⟩, logged.append final⟩

theorem emitAll_logs {is : List Instruction} (others : ∀ i ∈ is, i.isTrap = false) :
    Logs raw extra (emitAll is) fun _ => extra := by
  refine emitWords_logs fun w member => ?_
  obtain ⟨i, isOne, rfl⟩ := List.mem_map.1 member
  exact Or.inl (Instruction.encode_final (others i isOne))

theorem placeholder_logs (p : Placeholder) :
    Logs raw extra (placeholder p) fun index => (index, p) :: extra := by
  intro settings d i d' ok logged
  obtain ⟨rfl, rfl⟩ := emitWord_ok ok
  refine ⟨⟨.refl _, .append _ _⟩, ?_⟩
  have reserved := logged.reserve p
  rw [Array.push_eq_append] at reserved
  exact reserved.perm List.perm_middle.symm

/-- The branch of a part that is closed may be replaced. -/
theorem patch_logs {index : Nat} {i : Instruction} (other : i.isTrap = false) :
    Logs raw ((index, .controlBranch) :: extra) (patch index i) fun _ => extra := by
  intro settings d _ d' ok logged
  obtain ⟨-, rfl⟩ := patch_ok ok
  have ledger : Ledger raw d.word.start d.heap.staged
      ((index, .controlBranch) :: (d.word.slots ++ extra)) :=
    logged.perm List.perm_middle
  have final := Instruction.encode_final other
  exact ⟨⟨.refl _, ledger.fill_settles final⟩, ledger.fill final⟩

/-! ## The ledger -/

/-- The ledger grows by what is added to its parts. -/
theorem slots_perm (w w' : Definition) (patches locals control : Slots)
    (start : w'.start = w.start)
    (patches_perm : (w'.patches.flatMap PendingPatch.slots).Perm
      (w.patches.flatMap PendingPatch.slots ++ patches))
    (locals_perm : w'.locals.slots.Perm (w.locals.slots ++ locals))
    (control_perm : (w'.control.flatMap ControlFrame.slots).Perm
      (w.control.flatMap ControlFrame.slots ++ control)) :
    (w.slots ++ (patches ++ locals ++ control)).Perm w'.slots := by
  rw [List.perm_iff_count] at *
  intro slot
  have := patches_perm slot
  have := locals_perm slot
  have := control_perm slot
  simp only [Definition.slots, Definition.prologue, start, List.count_append] at *
  omega

theorem pushPatch_logs (p : PendingPatch) :
    Logs raw (p.slots ++ extra) (pushPatch p) fun _ => extra := by
  refine modifyWord_logs (fun w => { Definition.Advances.refl w with
    patches := List.prefix_append _ _ }) fun w => ?_
  rw [← List.append_assoc]
  refine List.Perm.append_right _ ?_
  have added := slots_perm w { w with patches := w.patches ++ [p] } p.slots [] [] rfl
    (by simp) (by simp) (by simp)
  simpa using added

theorem spill_logs (regs : RegSet) : Logs raw extra (spill regs) fun _ => extra := by
  intro settings d _ d' ok logged
  obtain ⟨-, rfl⟩ := spill_ok ok
  obtain ⟨-, perm⟩ := Locals.clobber_slots (position?_counts d.heap) regs 0 d.word.locals
  refine ⟨⟨{ Definition.Advances.refl d.word with locals := .clobber _ _ _ _ }, .append _ _⟩, ?_⟩
  have reserved := logged.reserveAll .localWrite (spilling regs d).writes
  refine reserved.perm ?_
  have added := slots_perm d.word (spilled regs d).word [] _ [] rfl (by simp [spilled]) perm
    (by simp [spilled])
  rw [List.perm_iff_count] at added ⊢
  intro slot
  have count := added slot
  simp only [List.nil_append, List.append_nil, List.count_append, Locals.writeSlots, Nat.add_zero,
    Nat.sub_zero] at count ⊢
  unfold CodeHeap.here at count
  unfold spilling
  omega

theorem clobber_logs (regs : RegSet) : Logs raw extra (clobber regs) fun _ => extra :=
  .bind (spill_logs regs) fun _ => modifyWord_plain
    (fun w => { Definition.Advances.refl w with
      clobbered := fun r member => by rw [RegSet.contains_union, member, Bool.true_or] })
    fun _ => rfl

theorem barrier_logs : Logs raw extra barrier fun _ => extra := spill_logs _

theorem loadImmediate_logs (reg : Reg) (value : Cell) :
    Logs raw extra (loadImmediate reg value) fun _ => extra := by
  refine .bind (clobber_logs _) fun _ => .bind .read fun settings => ?_
  split
  · next moves found =>
    refine emitAll_logs fun i member => ?_
    obtain ⟨op, imm, hw, rfl⟩ := Constant.mem_moves? found member
    rfl
  · exact .bind (placeholder_logs _) fun index => .bind (pushPatch_logs (.literal index reg value))
      fun _ => modifyWord_plain
        (fun w => { Definition.Advances.refl w with pcRelative := fun _ => rfl }) fun _ => rfl

/-- From here on the word is no leaf. -/
theorem leave_logs : Logs raw extra (modifyWord fun w => { w with leaf := false }) fun _ => extra :=
  modifyWord_plain (fun w => { Definition.Advances.refl w with calls := fun _ => rfl })
    fun _ => rfl

theorem raiseIfNonzero_logs (reg : Reg) : Logs raw extra (raiseIfNonzero reg) fun _ => extra :=
  .bind (placeholder_logs _) fun index => .bind (pushPatch_logs (.error index reg)) fun _ =>
    modifyWord_plain (fun w => { Definition.Advances.refl w with hasBranches := fun _ => rfl })
      fun _ => rfl

/-- Changing one local adds to the ledger what it adds to the slots of the local. -/
theorem modifyLocal_perm {id : Nat} {f : Local → Local} {ls : Locals} {added : Slots}
    (slots : ∀ l, ls[id]? = some l → (f l).slots.Perm (l.slots ++ added)) (bound : id < ls.length) :
    (Locals.slots (ls.modify id f)).Perm (ls.slots ++ added) := by
  induction ls generalizing id with
  | nil => cases bound
  | cons l rest ih =>
    cases id with
    | zero =>
      have own := slots l rfl
      rw [List.modify_zero_cons, Locals.slots_cons, Locals.slots_cons]
      rw [List.perm_iff_count] at own ⊢
      intro slot
      have := own slot
      simp only [List.count_append] at *
      omega
    | succ id =>
      have tail := @ih id slots (Nat.lt_of_succ_lt_succ bound)
      rw [List.modify_succ_cons, Locals.slots_cons, Locals.slots_cons, List.append_assoc]
      exact tail.append_left _

theorem readLocal_logs (id : Nat) (target : Reg) :
    Logs raw extra (readLocal id target) fun _ => extra := by
  intro settings d _ d' ok logged
  cases found : d.word.locals[id]? with
  | none =>
    have rest := tail_of ok rfl
    rw [found] at rest
    cases rest
    exact ⟨.refl d, logged⟩
  | some l =>
    rcases readLocal_ok found ok with ⟨-, rfl⟩ | ⟨source, -, moved⟩ | ⟨-, loaded⟩
    · exact ⟨.refl d', logged⟩
    · have logs : Logs raw extra (do
          clobber (.singleton target)
          let _ ← emit (Asm.mov target source)) fun _ => extra :=
        .bind (clobber_logs _) fun _ => .bind (emit_logs rfl) fun _ => .pure _
      exact logs settings d _ d' moved logged
    · obtain ⟨_, d1, cleared, rest⟩ := bind_ok.1 loaded
      obtain ⟨index, d2, reserved, rest⟩ := bind_ok.1 rest
      cases rest
      obtain ⟨advance1, logged1⟩ := clobber_logs _ settings d _ d1 cleared logged
      obtain ⟨advance2, logged2⟩ := placeholder_logs _ settings d1 index d2 reserved logged1
      have advance := advance1.trans advance2
      obtain ⟨l', found', -⟩ := advance.word.locals id l found
      obtain ⟨bound, -⟩ := List.getElem?_eq_some_iff.1 found'
      refine ⟨advance.trans ⟨{ Definition.Advances.refl d2.word with
        locals := .modify _ _ fun k => .recordRead k index target }, .refl _⟩, ?_⟩
      have recorded := modifyLocal_perm (fun k _ => Locals.recordRead_slots k index target) bound
      have added := slots_perm d2.word
        { d2.word with locals := d2.word.locals.modify id (·.recordRead index target) }
        [] [(index, .localRead)] [] rfl (by simp) recorded (by simp)
      refine Ledger.perm logged2 ?_
      rw [List.append_cons]
      exact added.append_right _

theorem assignLocal_logs (id : Nat) (reg : Reg) :
    Logs raw extra (assignLocal id reg) fun _ => extra := by
  refine modifyWord_plain (fun w => { Definition.Advances.refl w with
    locals := .modify _ _ fun l => .assign l reg }) fun w => ?_
  have same : Locals.slots (w.locals.modify id (·.assign reg)) = w.locals.slots := by
    generalize w.locals = ls
    induction ls generalizing id with
    | nil => cases id <;> rfl
    | cons l rest ih =>
      cases id with
      | zero => rfl
      | succ id =>
        rw [List.modify_succ_cons, Locals.slots_cons, Locals.slots_cons, ih]
  simp only [Definition.slots, Definition.prologue, same]

/-! ## Values between words -/

theorem logging : Counting fun {_} m => Logs raw extra m fun _ => extra where
  pure := .pure
  bind := .bind
  convention := .of_same fun _ _ _ _ ok => by
    cases ok
    rfl
  here := here_logs
  assembled := .assembled
  emit := emit_logs
  clobber := clobber_logs
  loadImmediate := loadImmediate_logs
  leave := leave_logs
  throw := .throw
  word := word_logs
  depth := depth_logs
  setDepth := setDepth_logs
  readLocal := readLocal_logs
  assignLocal := assignLocal_logs

theorem call_logs (callee : Entry) : Logs raw extra (call callee) fun _ => extra :=
  logging.call raiseIfNonzero_logs callee

theorem inlineBody_logs (callee : Entry) {body : List InstrWord}
    (final : ∀ w ∈ body, Final w ∨ raw w) :
    Logs raw extra (inlineBody callee body) fun _ => extra :=
  logging.inlineBody callee (emitWords_logs final)

/-! ## Control flow -/

/-- An open branch is in the ledger as long as its frame is on the stack. -/
theorem control_perm {w w' : Definition} {added : Slots} (start : w'.start = w.start)
    (patches : w'.patches = w.patches) (locals : w'.locals = w.locals)
    (control : (w'.control.flatMap ControlFrame.slots).Perm
      (added ++ w.control.flatMap ControlFrame.slots)) :
    (w.slots ++ (added ++ extra)).Perm (w'.slots ++ extra) := by
  have grown := slots_perm w w' [] [] added start (by simp [patches]) (by simp [locals])
    (control.trans List.perm_append_comm)
  rw [← List.append_assoc]
  simpa using grown.append_right extra

theorem ifPart_logs : Logs raw extra ifPart fun _ => extra := by
  refine .bind (logging.consume _) fun reg => .bind barrier_logs fun _ =>
    .bind (placeholder_logs _) fun branch => modifyWord_logs ?_ fun w => ?_
  · exact fun w => { Definition.Advances.refl w with hasBranches := fun _ => rfl }
  · exact @control_perm _ _ _ [(branch, .controlBranch)] rfl rfl rfl (.refl _)

/-- Forgetting the innermost branch leaves its placeholder outside the ledger. -/
theorem popControl_logs {d : Draft} {frame : ControlFrame}
    {outer : List ControlFrame} (frames : d.word.control = frame :: outer)
    (logged : d.Logged raw extra) :
    let d' : Draft := { d with word := { d.word with control := outer } }
    d.Advances d' ∧ d'.Logged raw (frame.slots ++ extra) := by
  refine ⟨⟨{ Definition.Advances.refl d.word with }, .refl _⟩, ?_⟩
  refine Ledger.perm logged (List.Perm.symm ?_)
  refine control_perm rfl rfl rfl ?_
  rw [frames, List.flatMap_cons]

theorem elsePart_logs : Logs raw extra elsePart fun _ => extra := by
  intro settings d _ d' ok logged
  have rest := tail_of ok rfl
  generalize frames : d.word.control = control at rest
  rcases control with _ | ⟨⟨branch, reg, depth⟩ | ⟨skip, depth, trueDepth⟩, outer⟩
  · cases rest
  · replace rest := tail_of rest rfl
    obtain ⟨advance1, logged1⟩ := popControl_logs frames logged
    have others : Logs raw ((branch, .controlBranch) :: extra) (do
        barrier
        let w ← word
        let trueDepth := if w.unreachable then none else some w.depth
        let skip ← placeholder .controlBranch
        let jump ← Emit.assembled (Asm.cbz reg (distance branch (← here)))
        patch branch jump
        modifyWord fun w =>
          { w with
            control := .elsePart skip depth trueDepth :: w.control, depth, unreachable := false })
        fun _ => extra := by
      refine .bind barrier_logs fun _ => .bind word_logs fun w =>
        .bind (.perm (placeholder_logs _) fun _ => .swap ..) fun skip =>
          .bind here_logs fun _ => .assembled fun jump made =>
            .bind (patch_logs (Instruction.isTrap_of_map (fun _ => rfl) made)) fun _ =>
              modifyWord_logs (fun w => { Definition.Advances.refl w with }) fun w => ?_
      exact @control_perm _ _ _ [(skip, .controlBranch)] rfl rfl rfl (.refl _)
    obtain ⟨advance, logged'⟩ := others settings _ _ d' rest logged1
    exact ⟨advance1.trans advance, logged'⟩
  · cases rest

theorem join_logs (first second : Option Nat) :
    Logs raw extra (join first second) fun _ => extra := by
  have advances : ∀ (w : Definition) depth unreachable,
      w.Advances { w with depth, unreachable } := fun w _ _ => { Definition.Advances.refl w with }
  unfold join
  split
  · dsimp only
    split
    · exact .throw _
    · exact modifyWord_plain (fun w => advances w _ _) fun _ => rfl
  all_goals exact modifyWord_plain (fun w => advances w _ _) fun _ => rfl

theorem thenPart_logs : Logs raw extra thenPart fun _ => extra := by
  intro settings d _ d' ok logged
  have rest := tail_of ok rfl
  generalize frames : d.word.control = control at rest
  rcases control with _ | ⟨frame, outer⟩
  · cases rest
  replace rest := tail_of rest rfl
  obtain ⟨advance1, logged1⟩ := popControl_logs frames logged
  obtain ⟨_, d2, saved, rest⟩ := bind_ok.1 rest
  obtain ⟨advance2, logged2⟩ := barrier_logs settings _ _ d2 saved logged1
  replace rest := tail_of (tail_of rest rfl :) rfl
  have advance := advance1.trans advance2
  have closed : ∀ {n jump} (first second : Option Nat), (∀ i, jump = .ok i → i.isTrap = false) →
      Logs raw ((n, .controlBranch) :: extra)
        (do patch n (← Emit.assembled jump); join first second)
        fun _ => extra :=
    fun _ _ other => .assembled fun i made => .bind (patch_logs (other i made)) fun _ =>
      join_logs _ _
  cases frame with
  | ifPart | elsePart =>
    obtain ⟨advance', logged'⟩ :=
      closed _ _ (by exact fun _ => Instruction.isTrap_of_map fun _ => rfl)
      settings d2 _ d' rest logged2
    exact ⟨advance.trans advance', logged'⟩

theorem exit_logs : Logs raw extra exit fun _ => extra := by
  refine .bind word_logs fun w => ?_
  dsimp only
  have leave : Logs raw extra (do
      let index ← placeholder .returnBranch
      pushPatch (.exit index)
      modifyWord fun w => { w with earlyReturn := true, hasBranches := true, unreachable := true })
      fun _ => extra :=
    .bind (placeholder_logs _) fun index => .bind (pushPatch_logs (.exit index)) fun _ =>
      modifyWord_plain (fun w => { Definition.Advances.refl w with
        hasBranches := fun _ => rfl, earlyReturn := fun _ => rfl }) fun _ => rfl
  split
  · exact leave
  · exact .throw _

theorem raise_logs : Logs raw extra raise fun _ => extra := logging.raise raiseIfNonzero_logs

theorem recurse_logs : Logs raw extra recurse fun _ => extra :=
  .bind word_logs fun _ => .bind logging.convention fun _ => .bind (logging.arity _) fun _ =>
    .bind (clobber_logs _) fun _ => .bind (placeholder_logs _) fun index =>
      .bind (.perm (placeholder_logs _) fun _ => .swap ..) fun check =>
        .bind (pushPatch_logs (.recursion index check)) fun _ =>
          modifyWord_plain (fun w => { Definition.Advances.refl w with calls := fun _ => rfl })
            fun _ => rfl

/-! ## Bodies -/

theorem declare_logs (name : String) : Logs raw extra
    (modifyWord fun w => { w with locals := (w.locals.declare name).2 }) fun _ => extra :=
  modifyWord_plain (fun w => { Definition.Advances.refl w with locals := .declare _ _ }) fun w => by
    simp only [Definition.slots, Definition.prologue, Locals.slots_declare]

theorem setLocal_logs (name : String) : Logs raw extra (setLocal name) fun _ => extra := by
  intro settings d _ d' ok logged
  have rest := tail_of (tail_of ok rfl :) rfl
  have advance1 : d.Advances { d with word :=
      { d.word with locals := (d.word.locals.declare name).2 } } :=
    ⟨{ Definition.Advances.refl d.word with locals := .declare _ _ }, .refl _⟩
  have same := Locals.slots_declare d.word.locals name
  have logged1 : Draft.Logged { d with word :=
      { d.word with locals := (d.word.locals.declare name).2 } } raw extra := by
    refine Ledger.perm logged ?_
    simp only [Definition.slots, Definition.prologue, same]
    exact .refl _
  obtain ⟨advance, logged'⟩ := logging.bindLocal _ settings _ _ d' rest logged1
  exact ⟨advance1.trans advance, logged'⟩

theorem instruction_logs {w : InstrWord} (final : Final w ∨ raw w) (clobbers : RegSet) :
    Logs raw extra (instruction w clobbers) fun _ => extra :=
  .bind (clobber_logs _) fun _ => emitWord_logs final

theorem primitiveBody_logs (inputs outputs : Nat) (clobbers : RegSet) {body : List InstrWord}
    (final : ∀ w ∈ body, Final w ∨ raw w) :
    Logs raw extra (primitiveBody inputs outputs clobbers body) fun _ => extra :=
  logging.primitiveBody inputs outputs clobbers (emitWords_logs final)

end Emit

end ForthJit
