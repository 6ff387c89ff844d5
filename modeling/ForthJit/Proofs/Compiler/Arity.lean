import ForthJit.Proofs.Compiler.Rejected
import ForthJit.Proofs.Compiler.Trace

/-!
# Calls that the pending values do not allow

A call is checked against the pending values before anything is emitted for it, so that a call which
is turned down leaves the definition as it was; at most the code of the callee has been published.
There is one check that comes later.  A word that leaves error codes to its own code counts the
error code of a callee as one more value, and finds out whether there is a register for it only when
the call is in place.  `arity_error_at_call` says that there is no other exception, and
`call_without_error_register` is such a call.
-/

namespace ForthJit

/-- Calls of a word by its position, of either kind, or by its name. -/
def Operation.isCall : Operation → Bool
  | .call _ | .inlineCall _ | .word _ => true
  | _ => false

/-! ## What is emitted for a call -/

namespace Emit

variable {α β : Type} {settings : Settings} {m : Emit α} {f : α → Emit β} {d d' : Draft}
  {e : CompileError} {callee : Entry}

theorem readLocal_accepts (id : Nat) (target : Reg) : Accepts settings (readLocal id target) := by
  refine .bind (.of_technical .word) fun w => ?_
  split
  · exact .of_technical (.pure _)
  · split
    · intro d e d' error
      cases error
      rfl
    · exact .of_technical (.pure _)
    · exact .of_technical (.bind (.clobber _) fun _ => .bind (.onHeap _) fun _ => .pure _)
    · exact .of_technical (.bind (.clobber _) fun _ => .bind (.onHeap _) fun _ => .modifyWord _)

/-- To look at the draft before a check does not change it. -/
theorem Checks.look (technical : Technical m) (same : ∀ d a d', m settings d = .ok a d' → d' = d)
    (next : ∀ a, Checks settings (f a)) : Checks settings (m >>= f) := by
  intro d e d' error rejected
  rcases bind_error error with failed | ⟨a, d1, done, failed⟩
  · cases rejected.symm.trans (Accepts.of_technical technical d e d' failed)
  · obtain rfl := same d a d1 done
    exact next a d1 e d' failed rejected

theorem Checks.word {f : Definition → Emit β} (next : ∀ w, Checks settings (f w)) :
    Checks settings (word >>= f) :=
  .look .word (fun _ _ _ ok => by cases ok; rfl) next

theorem Checks.depth {f : Nat → Emit β} (next : ∀ n, Checks settings (f n)) :
    Checks settings (depth >>= f) :=
  .look .depth (fun _ _ _ ok => by cases ok; rfl) next

theorem Checks.convention {f : Convention → Emit β} (next : ∀ c, Checks settings (f c)) :
    Checks settings (convention >>= f) :=
  .look .convention (fun _ _ _ ok => by cases ok; rfl) next

theorem getLocalCalled_checks (name : String) : Checks settings (getLocalCalled name) := by
  refine .word fun w => ?_
  split
  · exact .convention fun _ => .depth fun _ => .bind (.arity _) fun _ =>
      .bind (readLocal_accepts _ _) fun _ => .of_technical (.produce _)
  · intro d e d' error rejected
    cases error
    cases rejected

/-- A copy is made only after the check. -/
theorem inlineBody_checks (callee : Entry) (body : List InstrWord) :
    Checks settings (inlineBody callee body) :=
  .depth fun _ => .convention fun _ => .before (.arity _) fun _ => .bind (.clobber _) fun _ =>
    .bind (.onHeap _) fun _ => .modifyWord _

/-- An error code is turned down as a value only where values are in registers and all are taken. -/
theorem exposeError_rejected {reg : Reg} (error : exposeError reg settings d = .error e d')
    (rejected : e.isRejection = true) :
    settings.convention = .register ∧ e = .arity (.overflow maxValues) ∧
      maxValues ≤ d.word.depth ∧ d' = d := by
  have rest := tail_of error rfl
  cases convention : settings.convention with
  | register =>
    rw [convention] at rest
    rcases bind_error (tail_of rest rfl :) with failed | ⟨target, d1, produced, rest⟩
    · by_cases free : d.word.depth < maxValues
      · rw [Convention.produceReg, if_pos free] at failed
        cases failed
      · rw [Convention.produceReg, if_neg free] at failed
        cases failed
        exact ⟨rfl, rfl, Nat.le_of_not_lt free, rfl⟩
    · refine (Bool.false_ne_true ((Accepts.of_technical ?_ _ _ _ rest).symm.trans rejected)).elim
      dsimp only
      split
      · exact .bind (.clobber _) fun _ => .bind (.onHeap _) fun _ => .modifyWord _
      · exact .modifyWord _
  | stack =>
    rw [convention] at rest
    refine (Bool.false_ne_true ((Accepts.of_technical ?_ _ _ _ rest).symm.trans rejected)).elim
    refine .bind (Technical.laying.push _) fun _ => ?_
    dsimp only
    split
    · exact .bind (.onHeap _) fun _ => .increment
    · exact .increment

/-! ## How far a call gets -/

theorem clobbering_here (regs : RegSet) (d : Draft) :
    d.heap.here ≤ (clobbering regs d).heap.here := by
  simp [clobbering, spilled]

theorem loadImmediate_here {reg : Reg} {value : Cell}
    (ok : loadImmediate reg value settings d = .ok () d') : d.heap.here ≤ d'.heap.here := by
  obtain ⟨_, d1, announced, rest⟩ := bind_ok.1 ok
  obtain ⟨-, rfl⟩ := clobber_ok announced
  refine Nat.le_trans (clobbering_here (.singleton reg) d) ?_
  have load := tail_of rest rfl
  cases moves : Constant.moves? reg value settings.maxInlineChunks with
  | some instructions =>
    rw [moves] at load
    obtain rfl := emitWords_ok load
    simp
  | none =>
    rw [moves] at load
    have last := emitWord_bind load
    cases last
    simp

theorem callWord_here {entry : Nat} (ok : callWord entry settings d = .ok () d') :
    d.heap.here < d'.heap.here := by
  obtain ⟨_, -, emission⟩ := assembled_bind (tail_of ok rfl :)
  have last := emitWord_bind emission
  cases last
  simp

theorem callAddress_here {address : Nat} {throughSlot : Bool}
    (ok : callAddress address throughSlot settings d = .ok () d') : d.heap.here < d'.heap.here := by
  have last : ∀ {d}, (do
      let _ ← emit (.callReg .scratch)
      modifyWord fun w => { w with leaf := false } : Emit Unit) settings d = .ok () d' →
      d.heap.here < d'.heap.here := by
    intro d ok
    have rest := emitWord_bind ok
    cases rest
    simp
  obtain ⟨_, d1, loaded, rest⟩ := bind_ok.1 ok
  refine Nat.lt_of_le_of_lt (loadImmediate_here loaded) ?_
  dsimp only at rest
  split at rest
  · obtain ⟨_, -, emission⟩ := assembled_bind rest
    have calls := emitWord_bind emission
    refine Nat.lt_trans ?_ (last calls)
    simp
  · exact last rest

/-- Under the register convention a call is at least one word. -/
theorem callEntry_here {reg : Reg} (register : settings.convention = .register)
    (ok : callEntry callee settings d = .ok reg d') : d.heap.here < d'.heap.here := by
  have rest := tail_of ok rfl
  rw [register] at rest
  dsimp only at rest
  cases kind : callee.kind with
  | compiled | intrinsic | external =>
    rw [kind] at rest
    obtain ⟨_, d1, announced, rest⟩ := bind_ok.1 rest
    obtain ⟨-, rfl⟩ := clobber_ok announced
    obtain ⟨_, d2, called, rest⟩ := bind_ok.1 rest
    cases rest
    first
      | exact Nat.lt_of_le_of_lt (clobbering_here _ d) (callWord_here called)
      | exact Nat.lt_of_le_of_lt (clobbering_here _ d) (callAddress_here called)

/-- The call of `callee` is in place, but no register is left for the error code that it leaves. -/
structure Overfull (settings : Settings) (callee : Entry) (d d' : Draft) : Prop where
  register : settings.convention = .register
  exposes : d.word.signature.autoTry = false
  throws : callee.flags.throws = true
  inputs : d.word.depth = callee.inputs
  outputs : maxValues ≤ callee.outputs
  grown : d.heap.here < d'.heap.here
  called : ∃ reg d1, callEntry callee settings d = .ok reg d1 ∧
    d' = { d1 with word := { d1.word with depth := callee.outputs } }

/-- A call is turned down before anything is emitted, or for the error code of the callee. -/
theorem call_rejected (error : call callee settings d = .error e d')
    (rejected : e.isRejection = true) :
    d' = d ∨ e = .arity (.overflow maxValues) ∧ Overfull settings callee d d' := by
  rcases bind_error (tail_of (tail_of error rfl :) rfl :) with failed | ⟨_, d1, checked, rest⟩
  · exact Or.inl (Checks.arity _ _ _ _ failed rejected).1
  cases fits : settings.convention.checkArity callee.name d.word.depth callee.inputs with
  | error e1 =>
    rw [fits] at checked
    cases checked
  | ok _ =>
  rw [fits] at checked
  cases checked
  rcases bind_error rest with failed | ⟨reg, d2, called, rest⟩
  · cases rejected.symm.trans
      (Accepts.of_technical (Technical.laying.callEntry callee) _ _ _ failed)
  replace rest := tail_of rest rfl
  split at rest
  · next throws =>
    replace rest := tail_of rest rfl
    have kept : d2.word.signature = d.word.signature :=
      (shaping.callEntry callee _ _ _ called).signature
    split at rest
    · cases rejected.symm.trans (Accepts.of_technical (.raiseIfNonzero reg) _ _ _ rest)
    · next exposes =>
      obtain ⟨register, rfl, full, rfl⟩ := exposeError_rejected rest rejected
      have exact_inputs : d.word.depth = callee.inputs := by
        rw [register] at fits
        unfold Convention.checkArity at fits
        split at fits
        · cases fits
        · split at fits
          · cases fits
          · next enough extra =>
            simp only [true_and] at extra
            omega
      have outputs : d.word.depth - callee.inputs + callee.outputs = callee.outputs := by omega
      rw [outputs] at full ⊢
      have grown : d.heap.here < d2.heap.here := callEntry_here register called
      refine Or.inr ⟨rfl, register, ?_, throws, exact_inputs, full, grown, reg, d2, called, rfl⟩
      rw [← kept]
      simpa using exposes
  · cases rest

end Emit

/-! ## The state of the compiler -/

namespace Compiler

variable {c c' c'' : Compiler} {w : Definition} {id : EntryId} {op : Operation} {e : CompileError}

/-- `c'` is `c`, of whose code more may be published. -/
structure Untouched (c c' : Compiler) : Prop where
  rest : c' = { c with heap := c'.heap }
  staged : c'.heap.staged = c.heap.staged
  constants : c'.heap.constants = c.heap.constants
  data : c'.heap.data = c.heap.data
  table : c'.heap.table = c.heap.table

theorem Untouched.refl (c : Compiler) : c.Untouched c := ⟨rfl, rfl, rfl, rfl, rfl⟩

theorem Untouched.trans (first : c.Untouched c') (second : c'.Untouched c'') : c.Untouched c'' := by
  refine ⟨?_, second.staged.trans first.staged, second.constants.trans first.constants,
    second.data.trans first.data, second.table.trans first.table⟩
  have left := second.rest
  rw [first.rest] at left
  exact left

/-- To publish code changes nothing else. -/
theorem Untouched.publish (stop : Nat) (c : Compiler) :
    c.Untouched { c with heap := stateAfter (CodeHeap.ensurePublished stop) c.heap } := by
  obtain ⟨staged, constants, data, table⟩ := CodeHeap.ensurePublished_same stop c.heap
  exact ⟨rfl, staged, constants, data, table⟩

/-- A callee is found, and its code published, or the call fails for another reason than the pending
values. -/
theorem prepareCallee_untouched (id : EntryId) (c : Compiler) :
    (∃ callee c', prepareCallee id c = .ok callee c' ∧ c.dictionary.get? id = some callee ∧
      c.Untouched c') ∨
      ∃ e c', prepareCallee id c = .error e c' ∧ e.isRejection = false := by
  cases isOpen : c.definition with
  | none => exact Or.inr ⟨_, c, bind_of_error (active_none isOpen) _, rfl⟩
  | some w =>
    rw [prepareCallee, bind_of_ok (active_some isOpen)]
    dsimp only
    split
    · exact Or.inr ⟨_, c, rfl, rfl⟩
    · cases found : c.dictionary.get? id with
      | none => exact Or.inr ⟨_, c, bind_of_error (entry_none found) _, rfl⟩
      | some callee =>
        rw [bind_of_ok (entry_some found)]
        cases callee.compiled? with
        | none => exact Or.inl ⟨callee, c, rfl, rfl, .refl c⟩
        | some code =>
          have publish := Untouched.publish code.layout.stop c
          cases outcome : CodeHeap.ensurePublished code.layout.stop c.heap with
          | error e heap => exact Or.inr ⟨_, _, bind_of_error (onHeap_error outcome) _, rfl⟩
          | ok _ heap =>
            rw [stateAfter_of_ok outcome] at publish
            exact Or.inl ⟨callee, _, bind_of_ok (onHeap_ok outcome) _, rfl, publish⟩

/-- Once a call is compiled, recording it does not fail. -/
theorem recorded_error {action : Emit Unit}
    (error : (do emitting action; recordCall id : CompileM Unit) c = .error e c') :
    emitting action c = .error e c' := by
  cases first : emitting action c with
  | error e1 c1 =>
    cases (bind_of_error first _).symm.trans error
    rfl
  | ok _ c1 =>
    have rest : (do emitting action; recordCall id : CompileM Unit) c = recordCall id c1 :=
      bind_of_ok first _
    obtain ⟨w, d, -, -, rfl⟩ := emitting_ok first
    cases rest.symm.trans error

theorem inlineCall_rejected (error : inlineCall id c = .error e c')
    (rejected : e.isRejection = true) : c.Untouched c' := by
  rcases prepareCallee_untouched id c with ⟨callee, c1, prepared, -, same⟩ | ⟨e1, c1, failed, other⟩
  · rw [inlineCall, bind_of_ok prepared] at error
    cases compiled : callee.compiled? with
    | none =>
      rw [compiled] at error
      cases error
      cases rejected
    | some code =>
      rw [compiled] at error
      dsimp only at error
      cases refusal : code.inlineRefusal? callee.flags.throws with
      | some why =>
        rw [refusal] at error
        cases error
        cases rejected
      | none =>
        rw [refusal] at error
        dsimp only at error
        rw [bind_get] at error
        obtain ⟨rfl, -⟩ :=
          emitting_rejected (Emit.inlineBody_checks _ _) (recorded_error error) rejected
        exact same
  · rw [inlineCall, bind_of_error failed] at error
    cases error
    cases rejected.symm.trans other

/-- In the open definition `w` the call of `callee` is in place, but it cannot be completed. -/
def Overfull (c c' : Compiler) (w : Definition) (callee : Entry) : Prop :=
  ∃ c1 d, c.Untouched c1 ∧ Emit.Overfull c.settings callee ⟨c1.heap, w⟩ d ∧
    c' = { c1 with heap := d.heap, definition := some d.word }

theorem call_rejected (error : call id c = .error e c') (rejected : e.isRejection = true) :
    c.Untouched c' ∨ e = .arity (.overflow maxValues) ∧ ∃ w callee, c.definition = some w ∧
      c.dictionary.get? id = some callee ∧ c.Overfull c' w callee := by
  rcases prepareCallee_untouched id c with
    ⟨callee, c1, prepared, found, same⟩ | ⟨e1, c1, failed, other⟩
  · rw [call, bind_of_ok prepared, bind_get] at error
    split at error
    · exact Or.inl (same.trans (inlineCall_rejected error rejected))
    · obtain ⟨w, d, isOpen, failed, rfl⟩ := emitting_error (recorded_error error) rejected
      have settings : c1.settings = c.settings := by
        rw [same.rest]
      have definition : c.definition = some w := by
        rw [← isOpen, same.rest]
      rw [settings] at failed
      rcases Emit.call_rejected failed rejected with rfl | ⟨isOverflow, overfull⟩
      · refine Or.inl (same.trans ?_)
        rw [← isOpen]
        exact .refl c1
      · exact Or.inr ⟨isOverflow, w, callee, definition, found, c1, d, same, overfull, rfl⟩
  · rw [call, bind_of_error failed] at error
    cases error
    cases rejected.symm.trans other

/-- If a call is turned down because of the pending values, then the open definition, the
dictionary, the staged words, the constants, the data and the table are as before.  The only
exception is a word that takes error codes as values and calls, under the register convention, a
callee whose results take all registers: its call is in place, and the error is that there is no
register for the error code. -/
theorem arity_error_at_call {e : ArityError} (calls : op.isCall = true)
    (error : op.run c = .error (.arity e) c') :
    c.Untouched c' ∨ e = .overflow maxValues ∧ ∃ w id callee, c.definition = some w ∧
      op ≠ .inlineCall id ∧ c.callee? w op = some id ∧ c.dictionary.get? id = some callee ∧
      c.Overfull c' w callee := by
  cases op with
  | inlineCall id => exact Or.inl (inlineCall_rejected error rfl)
  | call id =>
    rcases call_rejected error rfl with same | ⟨isOverflow, w, callee, isOpen, found, overfull⟩
    · exact Or.inl same
    · cases isOverflow
      exact Or.inr ⟨rfl, w, id, callee, isOpen, Operation.noConfusion, rfl, found, overfull⟩
  | word name =>
    cases isOpen : c.definition with
    | none => cases (bind_of_error (active_none isOpen) _).symm.trans error
    | some w =>
      have rest : (if (w.locals.find? name).isSome then Compiler.getLocal name
          else do call (← find name)) c = .error (.arity e) c' :=
        (bind_of_ok (active_some isOpen) _).symm.trans error
      split at rest
      · obtain ⟨rfl, -⟩ := emitting_rejected (Emit.getLocalCalled_checks name) rest rfl
        exact Or.inl (.refl c')
      · next free =>
        cases named : c.dictionary.lookup? name with
        | none => cases (bind_of_error (find_none named) _).symm.trans rest
        | some id =>
          rw [bind_of_ok (find_some named)] at rest
          have callee : c.callee? w (.word name) = some id := by
            simp only [callee?, if_neg free, named]
          rcases call_rejected rest rfl with
            same | ⟨isOverflow, w0, callee, isOpen0, entry, overfull⟩
          · exact Or.inl same
          · cases isOverflow
            obtain rfl := Option.some.inj (isOpen.symm.trans isOpen0)
            exact Or.inr ⟨rfl, w, id, callee, rfl, Operation.noConfusion, ‹_›, entry, overfull⟩
  | _ => cases calls

/-- Addition is turned down if one value is pending; the definition goes on as before. -/
theorem arity_error_at_addition :
    ∃ b c c', create {} {} = .ok b ∧
      [.beginWord "short" { inputs := 0, outputs := 1 }, .literal 1].foldl after b = c ∧
      Operation.isCall (.word "+") = true ∧
      (Operation.word "+").run c = .error (.arity (.call "+" 2 1)) c' ∧ c.Untouched c' := by
  have state : (create {} {}).toOption.bind (fun b =>
      (failure? (Operation.word "+").run
        ([.beginWord "short" { inputs := 0, outputs := 1 }, .literal 1].foldl after b)).map (·.1)) =
      some (.arity (.call "+" 2 1)) := by
    decide +kernel
  obtain ⟨b, created, state⟩ := toOption_bind.1 state
  obtain ⟨e, c', failed, same⟩ := failure?_map.1 state
  obtain rfl : e = _ := same
  refine ⟨b, _, c', created, rfl, rfl, failed, ?_⟩
  rcases arity_error_at_call rfl failed with untouched | ⟨overflow, -⟩
  · exact untouched
  · cases overflow

/-- A word that takes error codes as values calls one that leaves eight results and may raise.  The
call is turned down, but the branch to the callee is in place, and its results count as pending. -/
theorem call_without_error_register :
    ∃ b c c', create {} {} = .ok b ∧
      [.beginWord "g" { inputs := 0, outputs := 8 }, .literal 1, .raise, .literal 1, .literal 2,
        .literal 3, .literal 4, .literal 5, .literal 6, .literal 7, .literal 8, .endWord,
        .beginWord "f" { inputs := 0, outputs := 8, autoTry := false }].foldl after b = c ∧
      (Operation.word "g").run c = .error (.arity (.overflow 8)) c' ∧
      c'.heap.here = c.heap.here + 1 ∧ c.depth? = some 0 ∧ c'.depth? = some 8 := by
  let ops : List Operation := [.beginWord "g" { inputs := 0, outputs := 8 }, .literal 1, .raise,
    .literal 1, .literal 2, .literal 3, .literal 4, .literal 5, .literal 6, .literal 7, .literal 8,
    .endWord,
    .beginWord "f" { inputs := 0, outputs := 8, autoTry := false }]
  have state : (create {} {}).toOption.bind (fun b =>
      (failure? (Operation.word "g").run (ops.foldl after b)).map fun (e, c') =>
        (e, decide (c'.heap.here = (ops.foldl after b).heap.here + 1), (ops.foldl after b).depth?,
          c'.depth?)) =
      some (.arity (.overflow 8), true, some 0, some 8) := by
    decide +kernel
  obtain ⟨b, created, state⟩ := toOption_bind.1 state
  obtain ⟨e, c', failed, state⟩ := failure?_map.1 state
  simp only [Prod.mk.injEq, decide_eq_true_eq] at state
  obtain ⟨rfl, grown, state⟩ := state
  exact ⟨b, _, c', created, rfl, failed, grown, state⟩

end Compiler

end ForthJit
