import ForthJit.Proofs.Compiler.Work
import ForthJit.Proofs.Dictionary.Truncate
import ForthJit.Proofs.Memory.DualHeap

/-!
# What operations leave alone

A compiler is used by one operation after the other, each of which may fail and may be refused a
change of protection.  `SessionInvariant` lists what is to be shown of a property that all of them
keep.  `Compiler.Follows b c`, which is one, says that `c` still has everything that `b` had: no
operation takes it back, as long as nothing is restored to a state before `b`.
-/

namespace ForthJit

namespace Compiler

variable {α : Type} {c0 c : Compiler}

/-! ## Operations between definitions -/

/-- The words of the reserved slots. -/
def reserved : List InstrWord := List.replicate prologueSlots Placeholder.prologue.word

/-- `c` after a definition has begun, with the reserved slots in `heap`. -/
def begun (c : Compiler) (name : String) (signature : Signature) (heap : CodeHeap) : Compiler :=
  let start := c.heap.here
  let code : CompiledWord :=
    { layout := { start, entry := start, body := start + prologueSlots }, leaf := true }
  { c with
    heap
    dictionary := c.dictionary.create
      { name, kind := .compiled code, inputs := signature.inputs, outputs := signature.outputs,
        flags := signature.flags }
    definition := some
      { entry := c.dictionary.size, name, signature, start, snapshot := c.snapshot } }

theorem requireIdle_cases (c : Compiler) :
    (∃ w, c.definition = some w ∧ requireIdle c = .error (.definitionInProgress w.name) c) ∨
      c.definition = none ∧ requireIdle c = .ok () c := by
  unfold requireIdle
  rw [bind_get]
  cases isOpen : c.definition with
  | some w => exact Or.inl ⟨w, rfl, rfl⟩
  | none => exact Or.inr ⟨rfl, rfl⟩

theorem checkCounts_cases (name : String) (counts : List (String × Nat × Nat)) (c : Compiler) :
    (∃ e, checkCounts name counts c = .error e c) ∨
      (∀ check ∈ counts, check.2.1 ≤ check.2.2) ∧ checkCounts name counts c = .ok () c := by
  unfold checkCounts
  generalize excess : List.find? _ counts = check
  cases check with
  | some check => exact Or.inl ⟨_, rfl⟩
  | none =>
    refine Or.inr ⟨fun check member => ?_, rfl⟩
    simpa using List.find?_eq_none.1 excess check member

/-- A definition begins unless one is open, the signature is too long or the heap is full; in the
last case what was emitted is taken back. -/
theorem beginWord_cases (name : String) (signature : Signature) (c : Compiler) :
    (∃ e, beginWord name signature c = .error e c) ∨
      c.definition = none ∧ signature.inputs ≤ maxValues ∧ signature.outputs ≤ maxValues ∧
        ((∃ e heap, CodeHeap.emitAll reserved c.heap = .error e heap ∧
            beginWord name signature c =
              .error (.memory e) { c with heap := heap.rewind c.heap.mark }) ∨
          ∃ heap, CodeHeap.emitAll reserved c.heap = .ok () heap ∧
            beginWord name signature c = .ok c.dictionary.size (c.begun name signature heap)) := by
  unfold beginWord
  rcases requireIdle_cases c with ⟨w, -, refused⟩ | ⟨idle, passed⟩
  · exact Or.inl ⟨_, bind_of_error refused _⟩
  rw [bind_of_ok passed]
  rcases checkCounts_cases name [("inputs", signature.inputs, maxValues),
    ("outputs", signature.outputs, maxValues)] c with ⟨e, refused⟩ | ⟨fits, passed⟩
  · exact Or.inl ⟨e, bind_of_error refused _⟩
  rw [bind_of_ok passed, bind_get]
  refine Or.inr ⟨idle, fits ("inputs", signature.inputs, maxValues) (by simp),
    fits ("outputs", signature.outputs, maxValues) (by simp), ?_⟩
  have staged := tryCatch_eq (onHeap (CodeHeap.emitAll reserved))
    (fun e => do
      modify fun c' => { c' with heap := c'.heap.rewind c.snapshot.heap }
      throw e) c
  cases outcome : CodeHeap.emitAll reserved c.heap with
  | error e heap =>
    rw [onHeap_error outcome] at staged
    exact Or.inl ⟨e, heap, rfl, bind_of_error staged _⟩
  | ok _ heap =>
    rw [onHeap_ok outcome] at staged
    exact Or.inr ⟨heap, rfl, bind_of_ok staged _⟩

/-- What is known of a definition that has begun. -/
theorem beginWord_ok {name : String} {signature : Signature} {c c' : Compiler} {id : EntryId}
    (begun : beginWord name signature c = .ok id c') :
    c.definition = none ∧ signature.inputs ≤ maxValues ∧ signature.outputs ≤ maxValues ∧
      ∃ heap, CodeHeap.emitAll reserved c.heap = .ok () heap ∧ id = c.dictionary.size ∧
        c' = c.begun name signature heap := by
  rcases beginWord_cases name signature c with
    ⟨e, failed⟩ | ⟨idle, few, few', ⟨e, heap, -, failed⟩ | ⟨heap, emitted, made⟩⟩
  · cases begun.symm.trans failed
  · cases begun.symm.trans failed
  · cases begun.symm.trans made
    exact ⟨idle, few, few', heap, emitted, rfl, rfl⟩

/-- A definition that could not begin changes the heap at most. -/
theorem beginWord_error {name : String} {signature : Signature} {c c' : Compiler} {e : CompileError}
    (failed : beginWord name signature c = .error e c') : c' = c ∨ ∃ e heap,
      CodeHeap.emitAll reserved c.heap = .error e heap ∧
        c' = { c with heap := heap.rewind c.heap.mark } := by
  rcases beginWord_cases name signature c with
    ⟨e, refused⟩ | ⟨-, -, -, ⟨e, heap, full, refused⟩ | ⟨heap, -, made⟩⟩
  · cases failed.symm.trans refused
    exact Or.inl rfl
  · cases failed.symm.trans refused
    exact Or.inr ⟨e, heap, full, rfl⟩
  · cases failed.symm.trans made

/-- Whether the word of the definition `w` can throw. -/
def throwing (c : Compiler) (w : Definition) : Bool :=
  w.raises || ((c.dictionary.get? w.entry).map (·.flags.throws)).getD false

/-- The dictionary with the code of entry `id`, before its name is bound. -/
def coded (c : Compiler) (id : EntryId) (throws : Bool) (finished : Finished) : Dictionary :=
  let d := c.dictionary.update id fun e =>
    { e with kind := .compiled finished.code, clobbers := finished.clobbers }
  if throws then d.markThrows id else d

/-- `c` after the definition of entry `id` has ended, before its code is published. -/
def ended (c : Compiler) (id : EntryId) (throws : Bool) (finished : Finished) : Compiler :=
  { c with
    definition := none
    dictionary := (c.coded id throws finished).publish id
    redefinitions := match (c.coded id throws finished).redefinition? id with
      | some r => c.redefinitions.push r
      | none => c.redefinitions }

theorem finishWord_eq (w : Definition) (c : Compiler) :
    finishWord w c =
      match emitting (Emit.finish (c.throwing w)) c with
      | .error e c' => .error e c'
      | .ok finished c' =>
        match CodeHeap.syncTo finished.code.layout.stop c'.heap with
        | .error e heap => .error (.memory e) { c'.ended w.entry (c.throwing w) finished with heap }
        | .ok _ heap => .ok w.entry { c'.ended w.entry (c.throwing w) finished with heap } := by
  unfold finishWord throwing
  rw [bind_get]
  dsimp only
  generalize (w.raises || _) = throws
  cases outcome : emitting (Emit.finish throws) c with
  | error e c' => exact bind_of_error outcome _
  | ok finished c' =>
    have sync : (do
        let _ ← onHeap (CodeHeap.syncTo finished.code.layout.stop)
        return w.entry) (c'.ended w.entry throws finished) =
        match CodeHeap.syncTo finished.code.layout.stop c'.heap with
        | .error e heap => .error (.memory e) { c'.ended w.entry throws finished with heap }
        | .ok _ heap => .ok w.entry { c'.ended w.entry throws finished with heap } := by
      cases synced : CodeHeap.syncTo finished.code.layout.stop c'.heap with
      | error e heap =>
        exact bind_of_error (onHeap_error (c := c'.ended w.entry throws finished) synced) _
      | ok r heap => exact bind_of_ok (onHeap_ok (c := c'.ended w.entry throws finished) synced) _
    refine (bind_of_ok outcome _).trans ?_
    cases throws with
    | true | false => exact sync

variable {w : Definition} {m : CompileM α}

theorem finishWord_ok {id : EntryId} {c' : Compiler} (ok : finishWord w c = .ok id c') :
    ∃ finished c1 heap published, emitting (Emit.finish (c.throwing w)) c = .ok finished c1 ∧
      CodeHeap.syncTo finished.code.layout.stop c1.heap = .ok published heap ∧
      c' = { c1.ended w.entry (c.throwing w) finished with heap } := by
  rw [finishWord_eq] at ok
  cases outcome : emitting (Emit.finish (c.throwing w)) c with
  | error e c1 =>
    rw [outcome] at ok
    cases ok
  | ok finished c1 =>
    rw [outcome] at ok
    dsimp only at ok
    cases synced : CodeHeap.syncTo finished.code.layout.stop c1.heap with
    | error e heap =>
      rw [synced] at ok
      cases ok
    | ok published heap =>
      rw [synced] at ok
      cases ok
      exact ⟨finished, c1, heap, published, rfl, synced, rfl⟩

theorem endWord_none (idle : c.definition = none) : endWord c = .error .noActiveDefinition c :=
  bind_of_error (active_none idle) _

theorem endWord_some (isOpen : c.definition = some w) :
    endWord c =
      match finishWord w c with
      | .ok id c' => .ok id c'
      | .error e c' => .error e (c'.restore w.snapshot) := by
  unfold endWord
  rw [bind_of_ok (active_some isOpen), tryCatch_eq]
  cases finishWord w c <;> rfl

theorem endWord_finished {id : EntryId} (isOpen : c.definition = some w)
    (ok : endWord c = .ok id c') : finishWord w c = .ok id c' := by
  rw [endWord_some isOpen] at ok
  cases finished : finishWord w c with
  | ok id' c'' =>
    rw [finished] at ok
    exact ok
  | error e c'' =>
    rw [finished] at ok
    cases ok

/-- `c` with one more entry, bound to its name. -/
def entered (c : Compiler) (e : Entry) : Compiler :=
  let d := c.dictionary.create e
  { c with
    dictionary := d.publish c.dictionary.size
    redefinitions := match d.redefinition? c.dictionary.size with
      | some r => c.redefinitions.push r
      | none => c.redefinitions }

theorem bindExternal_cases (name : String) (inputs outputs address : Nat) (c : Compiler) :
    (∃ e, bindExternal name inputs outputs address c = .error e c) ∨
      c.definition = none ∧ inputs ≤ maxValues ∧ outputs ≤ maxValues ∧
        ((∃ e heap, CodeHeap.bindSlot address c.heap = .error e heap ∧
            bindExternal name inputs outputs address c = .error (.memory e) { c with heap }) ∨
          ∃ slot heap, CodeHeap.bindSlot address c.heap = .ok slot heap ∧
            bindExternal name inputs outputs address c = .ok c.dictionary.size
              (entered { c with heap }
                { name, kind := .external slot address, inputs, outputs,
                  clobbers := .callerSaved })) := by
  unfold bindExternal
  rcases requireIdle_cases c with ⟨w, -, refused⟩ | ⟨idle, passed⟩
  · exact Or.inl ⟨_, bind_of_error refused _⟩
  rw [bind_of_ok passed]
  rcases checkCounts_cases name [("inputs", inputs, externalLimits.1),
    ("outputs", outputs, externalLimits.2)] c with ⟨e, refused⟩ | ⟨fits, passed⟩
  · exact Or.inl ⟨e, bind_of_error refused _⟩
  rw [bind_of_ok passed]
  have few : outputs ≤ 1 := fits ("outputs", outputs, externalLimits.2) (by simp)
  refine Or.inr ⟨idle, fits ("inputs", inputs, externalLimits.1) (by simp),
    Nat.le_trans few (by decide), ?_⟩
  cases outcome : CodeHeap.bindSlot address c.heap with
  | error e heap => exact Or.inl ⟨e, heap, rfl, bind_of_error (onHeap_error outcome) _⟩
  | ok slot heap =>
    refine Or.inr ⟨slot, heap, rfl, ?_⟩
    rw [bind_of_ok (onHeap_ok outcome)]
    rfl

theorem resolveExternal_cases (name : String) (inputs outputs : Nat) (c : Compiler) :
    resolveExternal name inputs outputs c = .error (.unresolvedExternal name) c ∨
      ∃ address, resolveExternal name inputs outputs c =
        bindExternal name inputs outputs address c := by
  rw [resolveExternal, bind_get]
  cases c.heap.memory.platform.resolve? name with
  | none => exact Or.inl rfl
  | some address => exact Or.inr ⟨address, rfl⟩

/-- A compiled word is entered.  Any other is called by a temporary word, and everything that was
done for that is taken back. -/
theorem invoke_cases (id : EntryId) (args : List Cell) (c : Compiler) :
    (∃ e, invoke id args c = .error e c) ∨
      c.definition = none ∧
        (invoke id args c = enterWord id args c ∨
          ∃ e, invoke id args c =
            (tryFinally (do enterWord (← wrapCall e id) args) (modify (·.restore c.snapshot)) :
              CompileM (List Cell)) c) := by
  unfold invoke
  rcases requireIdle_cases c with ⟨w, -, refused⟩ | ⟨idle, passed⟩
  · exact Or.inl ⟨_, bind_of_error refused _⟩
  rw [bind_of_ok passed]
  cases found : c.dictionary.get? id with
  | none => exact Or.inl ⟨_, bind_of_error (entry_none found) _⟩
  | some e =>
    rw [bind_of_ok (entry_some found)]
    dsimp only
    split
    · exact Or.inl ⟨_, rfl⟩
    split
    · exact Or.inl ⟨_, rfl⟩
    refine Or.inr ⟨idle, ?_⟩
    split
    · exact Or.inl rfl
    · exact Or.inr ⟨e, rfl⟩

/-- While a definition is open, no other can begin and nothing can be entered or run. -/
theorem refused_of_open (isOpen : c.definition ≠ none) {op : Operation}
    (outside : op.inBody = false) (notEnded : op ≠ .endWord) (notAbandoned : op ≠ .abandonWord) :
    ∃ e, op.run c = .error e c := by
  have begins : ∀ name signature, ∃ e, beginWord name signature c = .error e c := by
    intro name signature
    rcases beginWord_cases name signature c with refused | ⟨idle, -⟩
    · exact refused
    · exact absurd idle isOpen
  have binds : ∀ name inputs outputs address,
      ∃ e, bindExternal name inputs outputs address c = .error e c := by
    intro name inputs outputs address
    rcases bindExternal_cases name inputs outputs address c with refused | ⟨idle, -⟩
    · exact refused
    · exact absurd idle isOpen
  cases op with
  | beginWord name signature =>
    obtain ⟨e, refused⟩ := begins name signature
    exact ⟨e, bind_of_error refused _⟩
  | endWord => exact absurd rfl notEnded
  | abandonWord => exact absurd rfl notAbandoned
  | definePrimitive name inputs outputs clobbers body =>
    obtain ⟨e, refused⟩ := begins name { inputs, outputs, quiet := true }
    have failed : definePrimitive name inputs outputs clobbers body c = .error e c :=
      bind_of_error refused _
    exact ⟨e, bind_of_error failed _⟩
  | bindExternal name inputs outputs address =>
    obtain ⟨e, refused⟩ := binds name inputs outputs address
    exact ⟨e, bind_of_error refused _⟩
  | resolveExternal name inputs outputs =>
    rcases resolveExternal_cases name inputs outputs c with unresolved | ⟨address, found⟩
    · exact ⟨_, bind_of_error unresolved _⟩
    · obtain ⟨e, refused⟩ := binds name inputs outputs address
      exact ⟨e, bind_of_error (found.trans refused) _⟩
  | invoke id args =>
    rcases invoke_cases id args c with ⟨e, refused⟩ | ⟨idle, -⟩
    · exact ⟨e, bind_of_error refused _⟩
    · exact absurd idle isOpen
  | _ => cases outside

/-! ## Invariants -/

/-- A property of compilers that neither the growth of the heap nor an edit of the open definition
breaks. -/
structure DraftInvariant (I : Compiler → Prop) : Prop where
  heap : ∀ {c h}, I c → (∀ n, CodeHeap.Grows n c.heap h) → I { c with heap := h }
  draft : ∀ {c w d}, I c → c.definition = some w →
    (∀ b origin, Draft.Confined b origin ⟨c.heap, w⟩ → Draft.Confined b origin d) →
    I { c with heap := d.heap, definition := some d.word }

/-- A property that no work on the open definition breaks. -/
structure BodyInvariant (I : Compiler → Prop) : Prop extends DraftInvariant I where
  addCall : ∀ {c w} {id : Nat}, I c → c.definition = some w →
    id < c.dictionary.size ∨ id = w.entry →
      I { c with dictionary := c.dictionary.addCall w.entry id }

/-- A property that ending the definition does not break, nor taking it back. -/
structure EndInvariant (I : Compiler → Prop) : Prop extends DraftInvariant I where
  ended : ∀ {c w d finished}, I c → c.definition = some w →
    Emit.finish (c.throwing w) c.settings ⟨c.heap, w⟩ = .ok finished d → I (c.drafted d) →
    I ((c.drafted d).ended w.entry (c.throwing w) finished)
  restore : ∀ {c c' w}, I c → c.definition = some w → I c' → I (c'.restore w.snapshot)

/-- A property that no operation breaks, if all its actions `may` be done. -/
structure SessionInvariant (may : Action → Prop) (I : Compiler → Prop) : Prop extends
    EndInvariant I where
  plain : ∀ a : Action, a.isPlain = true → may a
  worked : ∀ {c0 c}, I c0 → Worked False may c0 c → I c
  begun : ∀ {c name signature heap}, I c → c.definition = none →
    CodeHeap.emitAll reserved c.heap = .ok () heap → I (c.begun name signature heap)
  unbegun : ∀ {c e heap}, I c → CodeHeap.emitAll reserved c.heap = .error e heap →
    I { c with heap := heap.rewind c.heap.mark }
  entered : ∀ {c e}, I c → c.definition = none → e.callers = [] → e.callees = [] →
    e.visible = false → e.compiled? = none → I (c.entered e)
  back : ∀ {c c'}, I c → c.definition = none → I c' → I (c'.restore c.snapshot)

variable {I : Compiler → Prop} {strict : Prop} {may : Action → Prop}

theorem emitting_keeps (inv : DraftInvariant I) {action : Emit α}
    (steady : ∀ b origin, Emit.Steady b origin action) :
    Keeps I (emitting action) fun _ => True := by
  intro c holds
  cases isOpen : c.definition with
  | none =>
    rw [emitting_none isOpen]
    exact holds
  | some w =>
    have moved := inv.draft holds isOpen
      (d := stateAfter (action c.settings) ⟨c.heap, w⟩) fun b origin confined =>
        (steady b origin c.settings).after confined
    rw [emitting_some isOpen]
    cases outcome : action c.settings ⟨c.heap, w⟩ with
    | ok a d =>
      rw [stateAfter_of_ok outcome] at moved
      exact ⟨moved, trivial⟩
    | error e d =>
      rw [stateAfter_of_error outcome] at moved
      exact moved

theorem seq {β : Type} {f : α → CompileM β} {Q : β → Prop} (first : Keeps I m fun _ => True)
    (second : ∀ a, Keeps I (f a) Q) : Keeps I (m >>= f) Q :=
  Keeps.bind first fun a _ => second a

theorem ignore_keeps (kept : Keeps I m fun _ => True) : Keeps I (do let _ ← m) fun _ => True :=
  seq kept fun _ => .pure trivial

theorem entry_keeps (id : EntryId) : Keeps I (entry id) fun _ => True := by
  intro c holds
  rw [entry, bind_get]
  cases c.dictionary.get? id with
  | none => exact holds
  | some e => exact ⟨holds, trivial⟩

theorem ofExcept_keeps (r : Except CompileError α) :
    Keeps I (MonadExcept.ofExcept r : CompileM α) fun _ => True := by
  cases r with
  | ok a => exact Keeps.pure trivial
  | error e => exact Keeps.throw e

theorem DraftInvariant.drafted (inv : DraftInvariant I) (holds : I c)
    (isOpen : c.definition = some w) (a : Action) :
    I (c.drafted (stateAfter (a.emit c.settings) ⟨c.heap, w⟩)) :=
  inv.draft holds isOpen fun b origin confined => ((a.steady b origin) _).after confined

/-- Actions keep what no work on the open definition breaks. -/
theorem Worked.keeps (inv : BodyInvariant I) (worked : Worked strict may c0 c) (start : I c0) :
    I c := by
  induction worked with
  | start => exact start
  | heap _ _ grows ih => exact inv.heap ih grows
  | @act c w a d _ isOpen fits _ done ih =>
    have left := inv.drafted ih isOpen a
    rw [stateAfter_of_ok done] at left
    unfold Compiler.acted Action.record
    cases called : a.callee? d.word with
    | none => exact left
    | some id => exact inv.addCall left rfl (fits.callee_known called)
  | @failed c w a e d _ _ isOpen _ _ failed ih =>
    have left := inv.drafted ih isOpen a
    rwa [stateAfter_of_error failed] at left

/-- Whatever is done to the open definition keeps every such property. -/
theorem Does.keeps {D : Nat → List Deed → Nat → Prop} (inv : BodyInvariant I)
    (does : Does (fun _ => True) m D) : Keeps I m fun _ => True :=
  .of_after fun _ holds => Worked.keeps inv (does.worked .start False.elim) holds

theorem inBody_keeps (inv : BodyInvariant I) {op : Operation} (inBody : op.inBody = true) :
    Keeps I op.run fun _ => True :=
  (Does.inBody (fun _ _ => trivial) inBody fun _ _ => trivial).keeps inv

namespace EndInvariant

variable (inv : EndInvariant I)

include inv

theorem finishWord (holds : I c) {w : Definition} (isOpen : c.definition = some w) :
    I (stateAfter (finishWord w) c) := by
  have emitted := emitting_keeps inv.toDraftInvariant
    (fun _ _ => Emit.finish_confined (c.throwing w)) c holds
  unfold stateAfter
  rw [finishWord_eq]
  cases outcome : emitting (Emit.finish (c.throwing w)) c with
  | error e c' =>
    rw [outcome] at emitted
    exact emitted
  | ok finished c' =>
    rw [outcome] at emitted
    obtain ⟨w', d, isOpen', done, rfl⟩ := emitting_ok outcome
    cases isOpen.symm.trans isOpen'
    have synced := inv.heap (inv.ended holds isOpen done emitted.1) fun _ =>
      CodeHeap.syncTo_leaves finished.code.layout.stop d.heap
    cases published : CodeHeap.syncTo finished.code.layout.stop d.heap with
    | error e heap =>
      rw [stateAfter_of_error published] at synced
      simp only [published]
      exact synced
    | ok r heap =>
      rw [stateAfter_of_ok published] at synced
      simp only [published]
      exact synced

/-- A definition that cannot be ended is taken back, to where it began. -/
theorem endWord : Keeps I endWord fun _ => True := by
  intro c holds
  cases isOpen : c.definition with
  | none =>
    rw [endWord_none isOpen]
    exact holds
  | some w =>
    have finished := inv.finishWord holds isOpen
    rw [endWord_some isOpen]
    cases outcome : Compiler.finishWord w c with
    | ok id c' =>
      rw [stateAfter_of_ok outcome] at finished
      exact ⟨finished, trivial⟩
    | error e c' =>
      rw [stateAfter_of_error outcome] at finished
      exact inv.restore holds isOpen finished

theorem abandonWord (holds : I c) : I c.abandonWord := by
  unfold Compiler.abandonWord
  cases isOpen : c.definition with
  | none => exact holds
  | some w => exact inv.restore holds isOpen holds

end EndInvariant

namespace SessionInvariant

variable (inv : SessionInvariant may I)

include inv

theorem keeps {m : CompileM α} {D : Nat → List Deed → Nat → Prop} (does : Does may m D) :
    Keeps I m fun _ => True :=
  .of_after fun _ holds => inv.worked holds (does.worked .start False.elim)

theorem beginWord (name : String) (signature : Signature) :
    Keeps I (beginWord name signature) fun _ => True := by
  intro c holds
  rcases beginWord_cases name signature c with ⟨e, refused⟩ |
    ⟨idle, -, -, ⟨e, heap, full, refused⟩ | ⟨heap, emitted, begun⟩⟩
  · rw [refused]
    exact holds
  · rw [refused]
    exact inv.unbegun holds full
  · rw [begun]
    exact ⟨inv.begun holds idle emitted, trivial⟩

theorem definePrimitive (name : String) (inputs outputs : Nat) (clobbers : RegSet)
    (body : List InstrWord) :
    Keeps I (definePrimitive name inputs outputs clobbers body) fun _ => True := by
  refine seq (inv.beginWord _ _) fun _ => seq (Keeps.tryCatch ?_ fun e => ?_) fun _ => inv.endWord
  · exact emitting_keeps inv.toDraftInvariant fun _ _ => Emit.primitiveBody_confined _ _ _ _
  · exact seq (Keeps.modify (fun _ holds => inv.abandonWord holds) trivial) fun _ => Keeps.throw e

theorem bindExternal (name : String) (inputs outputs address : Nat) :
    Keeps I (bindExternal name inputs outputs address) fun _ => True := by
  intro c holds
  rcases bindExternal_cases name inputs outputs address c with ⟨e, refused⟩ |
    ⟨idle, -, -, ⟨e, heap, full, refused⟩ | ⟨slot, heap, reserved, bound⟩⟩
  · rw [refused]
    exact holds
  · rw [refused]
    exact inv.heap holds fun _ => (CodeHeap.bindSlot_leaves address).of_error full
  · have grown := inv.heap holds fun _ => (CodeHeap.bindSlot_leaves address).of_ok reserved
    rw [bound]
    exact ⟨inv.entered grown idle rfl rfl rfl rfl, trivial⟩

theorem resolveExternal (name : String) (inputs outputs : Nat) :
    Keeps I (resolveExternal name inputs outputs) fun _ => True := by
  refine seq (Keeps.get fun _ _ => trivial) fun c => ?_
  split
  · exact Keeps.throw _
  · exact inv.bindExternal _ _ _ _

/-- A temporary word calls another one and is entered. -/
theorem wrapped (e : Entry) (id : EntryId) (args : List Cell) :
    Keeps I (do enterWord (← wrapCall e id) args) fun _ => True := by
  have called := inv.keeps (.call inv.plain id)
  exact seq (seq (inv.beginWord _ _) fun _ => seq called fun _ => inv.endWord) fun wrapper =>
    inv.keeps (.enterWord wrapper args)

theorem invoke (id : EntryId) (args : List Cell) : Keeps I (invoke id args) fun _ => True := by
  refine .of_after fun c holds => ?_
  rcases invoke_cases id args c with ⟨e, refused⟩ | ⟨idle, entered | ⟨e, wrapped⟩⟩
  · rw [stateAfter_of_error refused]
    exact holds
  · rw [stateAfter_congr entered]
    exact (inv.keeps (.enterWord id args)).after holds
  · rw [stateAfter_congr wrapped, stateAfter_tryFinally]
    exact inv.back holds idle ((inv.wrapped e id args).after holds)

theorem run (op : Operation) (own : ∀ a, op.action? = some a → may a) :
    Keeps I op.run fun _ => True := by
  cases inBody : op.inBody with
  | true => exact inv.keeps (.inBody inv.plain inBody own)
  | false =>
    cases op with
    | beginWord name signature => exact ignore_keeps (inv.beginWord name signature)
    | endWord => exact ignore_keeps inv.endWord
    | abandonWord => exact .modify (fun _ holds => inv.abandonWord holds) trivial
    | definePrimitive name inputs outputs clobbers body =>
      exact ignore_keeps (inv.definePrimitive name inputs outputs clobbers body)
    | bindExternal name inputs outputs address =>
      exact ignore_keeps (inv.bindExternal name inputs outputs address)
    | resolveExternal name inputs outputs =>
      exact ignore_keeps (inv.resolveExternal name inputs outputs)
    | invoke id args => exact ignore_keeps (inv.invoke id args)
    | _ => cases inBody

end SessionInvariant

/-! ## Everything from before stays -/

end Compiler

/-- Rewinding to `m` keeps everything that `b` has. -/
structure CodeHeap.CoveredBy (b : CodeHeap) (m : HeapMark) : Prop where
  code : b.here ≤ m.code
  constants : b.constants.used ≤ m.constants
  data : b.data.used ≤ m.data
  slots : b.table.used ≤ m.slots * 8

namespace CodeHeap.Follows

variable {b h : CodeHeap}

theorem refl (consistent : h.Consistent) : h.Follows h :=
  ⟨consistent, .refl h, consistent, Nat.le_refl _, fun _ _ => rfl⟩

theorem covered (follows : b.Follows h) : b.CoveredBy h.mark := by
  have whole := follows.consistent.slots
  have used := follows.extended.table.used
  refine ⟨follows.shares.here, follows.extended.constants.used, follows.extended.data.used, ?_⟩
  show b.table.used ≤ h.table.used / 8 * 8
  omega

theorem rewind (follows : b.Follows h) {m : HeapMark} (covered : b.CoveredBy m) :
    b.Follows (h.rewind m) := by
  obtain ⟨base, extended, consistent, shares⟩ := follows
  have published := base.published_le
  have longer := extended.published
  have enough := shares.here
  have code := covered.code
  have region : ∀ {r r' : Region} {used : Nat}, r.Extends r' → r.used ≤ used →
      r.Extends (r'.rewind used) := fun grown le =>
    ⟨grown.offset, grown.capacity, Nat.le_min.2 ⟨grown.used, le⟩, grown.kept⟩
  have word : ∀ i < b.here, (h.rewind m).word? i = b.word? i := by
    intro i low
    refine Eq.trans ?_ (shares.words i low)
    show (h.staged.shrink m.code)[i]? = h.staged[i]?
    rw [getElem?_shrink, if_pos (by omega)]
  refine ⟨base, { extended with
      published := ?_
      staged := fun i live => word i (by omega)
      constants := region extended.constants covered.constants
      data := region extended.data covered.data
      table := region extended.table covered.slots },
    rewind_consistent consistent m, ?_, word⟩
  · show b.published ≤ min h.published m.code
    omega
  · show b.here ≤ (h.staged.shrink m.code).size
    rw [Array.size_shrink]
    exact Nat.le_min.2 ⟨code, enough⟩

end CodeHeap.Follows

/-- `w` was begun after `b` and is the newest entry of `c`. -/
structure Definition.OpenSince (b c : Compiler) (w : Definition) : Prop where
  newest : c.dictionary.size = w.entry + 1
  hidden : ∀ e, c.dictionary.get? w.entry = some e → e.visible = false
  entry : b.dictionary.size ≤ w.entry
  entries : b.dictionary.size ≤ w.snapshot.entries
  mark : b.heap.CoveredBy w.snapshot.heap
  slots : ∀ slot ∈ w.slots, b.heap.here ≤ slot.1

/-- `c` came from `b` by operations that keep everything that `b` has. -/
structure Compiler.Follows (b c : Compiler) : Prop where
  heap : b.heap.Follows c.heap
  dictionary : c.dictionary.WellFormed
  entries : b.dictionary.SharesBelow b.dictionary.size c.dictionary
  definition : ∀ w, c.definition = some w → w.OpenSince b c

namespace Compiler

variable {b c : Compiler}

theorem Follows.withHeap (follows : b.Follows c) {heap : CodeHeap} (grown : b.heap.Follows heap) :
    b.Follows { c with heap } :=
  { follows with
    heap := grown
    definition := fun w isOpen => { follows.definition w isOpen with } }

/-- Work on the open definition takes nothing back. -/
theorem follows_invariant (b : Compiler) : BodyInvariant b.Follows where
  heap := fun follows grows => follows.withHeap (follows.heap.of_grows (grows _))
  draft := by
    intro c w d follows isOpen confined
    have since := follows.definition w isOpen
    have inside := confined b.heap w ⟨follows.heap, rfl, rfl, rfl, since.slots⟩
    refine { follows with heap := inside.heap, definition := ?_ }
    intro w' same
    obtain rfl := Option.some.inj same
    have entry := inside.word.entry
    have snapshot := inside.word.snapshot
    exact ⟨by rw [entry]; exact since.newest, by rw [entry]; exact since.hidden,
      by rw [entry]; exact since.entry, by rw [snapshot]; exact since.entries,
      by rw [snapshot]; exact since.mark, inside.word.slots⟩
  addCall := by
    intro c w id follows isOpen bound
    have since := follows.definition w isOpen
    have newest := since.newest
    have older : id ≤ w.entry := by omega
    obtain ⟨wellFormed, flagged⟩ := follows.dictionary.addCall newest.symm older
    have enough := follows.entries.size
    have linked := Dictionary.SharesBelow.link enough since.entry id
    refine ⟨follows.heap, wellFormed, (follows.entries.trans linked).trans
      (.flagged linked.size since.entry flagged), ?_⟩
    intro w' same
    obtain rfl := Option.some.inj (isOpen.symm.trans same)
    refine { since with newest := ?_, hidden := ?_ }
    · show (c.dictionary.addCall w.entry id).size = _
      rw [Dictionary.size_addCall]
      exact newest
    · intro e found
      obtain ⟨e1, found1, core1⟩ := flagged.core found
      obtain ⟨e0, found0, core0, -⟩ := Dictionary.link_view found1
      exact (congrArg Entry.visible (core1.trans core0) :).trans (since.hidden e0 found0)

theorem Follows.refl (consistent : c.heap.Consistent) (wellFormed : c.dictionary.WellFormed)
    (idle : c.definition = none) : c.Follows c :=
  ⟨.refl consistent, wellFormed, .refl (Nat.le_refl _), fun w isOpen => by
    rw [idle] at isOpen
    cases isOpen⟩

theorem Follows.restore (follows : b.Follows c) {s : Snapshot}
    (entries : b.dictionary.size ≤ s.entries) (mark : b.heap.CoveredBy s.heap) :
    b.Follows (c.restore s) :=
  ⟨follows.heap.rewind mark, follows.dictionary.truncate _,
    follows.entries.trans (.truncate follows.dictionary entries follows.entries.size),
    fun _ isOpen => by cases isOpen⟩

/-- A definition that has begun is the newest entry, and it can be taken back. -/
theorem Follows.begun (follows : b.Follows c) (name : String) (signature : Signature)
    {heap : CodeHeap} (emitted : b.heap.Follows heap) :
    b.Follows (c.begun name signature heap) := by
  have enough := follows.entries.size
  refine ⟨emitted, follows.dictionary.create rfl rfl rfl,
    follows.entries.trans (.create enough _), fun w isOpen => ?_⟩
  obtain rfl := Option.some.inj isOpen
  refine ⟨Dictionary.size_create .., ?_, enough, enough, follows.heap.covered, ?_⟩
  · intro e found
    replace found : (c.dictionary.create _).get? c.dictionary.size = some e := found
    rw [Dictionary.get?_create, if_pos rfl] at found
    obtain rfl := Option.some.inj found
    rfl
  · intro slot member
    simp only [Definition.slots, Definition.prologue, List.flatMap_nil, List.append_nil,
      Locals.slots] at member
    obtain ⟨n, -, rfl⟩ := List.mem_map.1 member
    exact Nat.le_add_right_of_le follows.heap.shares.here

variable {w : Definition}

/-- The code of the newest entry can be filled in. -/
theorem Follows.coded (follows : b.Follows c) (isOpen : c.definition = some w) (throws : Bool)
    (finished : Finished) :
    let d := c.coded w.entry throws finished
    d.WellFormed ∧ d.size = w.entry + 1 ∧ c.dictionary.SharesBelow b.dictionary.size d ∧
      ∀ e, d.get? w.entry = some e → e.visible = false ∧ e.kind = .compiled finished.code := by
  have since := follows.definition w isOpen
  have enough := follows.entries.size
  unfold Compiler.coded
  generalize updated : (c.dictionary.update w.entry fun e =>
    { e with kind := .compiled finished.code, clobbers := finished.clobbers }) = d
  have newest : w.entry + 1 = d.size := by
    rw [← updated, Dictionary.size_update]
    exact since.newest.symm
  have coded : d.WellFormed ∧ c.dictionary.SharesBelow b.dictionary.size d ∧
      ∀ e, d.get? w.entry = some e → e.visible = false ∧ e.kind = .compiled finished.code := by
    rw [← updated]
    refine ⟨follows.dictionary.update fun _ => ⟨rfl, rfl, rfl, rfl, rfl⟩,
      .update enough since.entry _, fun e found => ?_⟩
    rw [Dictionary.get?_update, if_pos rfl] at found
    obtain ⟨e0, found0, rfl⟩ := Option.map_eq_some_iff.1 found
    exact ⟨since.hidden e0 found0, rfl⟩
  obtain ⟨wellFormed, shares, shown⟩ := coded
  cases throws with
  | false => exact ⟨wellFormed, newest.symm, shares, shown⟩
  | true =>
    obtain ⟨marked, flagged⟩ := wellFormed.markThrows newest
    refine ⟨marked, flagged.size.trans newest.symm,
      shares.trans (.flagged shares.size since.entry flagged), fun e found => ?_⟩
    obtain ⟨e0, found0, same⟩ := flagged.core found
    obtain ⟨hidden, kind⟩ := shown e0 found0
    exact ⟨(congrArg Entry.visible same :).trans hidden, (congrArg Entry.kind same :).trans kind⟩

/-- Ending a definition completes the newest entry. -/
theorem Follows.ended (follows : b.Follows c) (isOpen : c.definition = some w) (throws : Bool)
    (finished : Finished) : b.Follows (c.ended w.entry throws finished) := by
  obtain ⟨wellFormed, newest, shares, shown⟩ := follows.coded isOpen throws finished
  exact ⟨follows.heap, wellFormed.publish newest.symm fun e found => (shown e found).1,
    (follows.entries.trans shares).trans
      (.publish shares.size (follows.definition w isOpen).entry),
    fun _ isOpen => by cases isOpen⟩

theorem Follows.entered (follows : b.Follows c) (idle : c.definition = none) {e : Entry}
    (callers : e.callers = []) (callees : e.callees = []) (hidden : e.visible = false) :
    b.Follows (c.entered e) := by
  have enough := follows.entries.size
  have created := Dictionary.SharesBelow.create enough e
  refine ⟨follows.heap, (follows.dictionary.create callers callees hidden).publish
      (Dictionary.size_create ..).symm fun f found => ?_,
    (follows.entries.trans created).trans (.publish created.size enough), fun w isOpen => ?_⟩
  · rw [Dictionary.get?_create, if_pos rfl] at found
    obtain rfl := Option.some.inj found
    exact hidden
  · replace isOpen : c.definition = some w := isOpen
    rw [idle] at isOpen
    cases isOpen

/-- No operation but restoring takes anything back that was there before. -/
theorem follows_session (b : Compiler) : SessionInvariant (fun _ => True) b.Follows :=
  { follows_invariant b with
    plain := fun _ _ => trivial
    worked := fun follows worked => worked.keeps (follows_invariant b) follows
    ended := fun {c w d finished} follows isOpen _ drafted => by
      have since := drafted.definition d.word rfl
      have ended := drafted.ended rfl (c.throwing w) finished
      have same : d.word.entry = w.entry :=
        Nat.add_right_cancel (since.newest.symm.trans (follows.definition w isOpen).newest)
      rwa [same] at ended
    restore := fun {c c' w} follows isOpen follows' =>
      follows'.restore (follows.definition w isOpen).entries (follows.definition w isOpen).mark
    begun := fun follows _ emitted => follows.begun _ _
      (follows.heap.of_grows ((CodeHeap.emitAll_leaves reserved).of_ok emitted))
    unbegun := fun follows full => follows.withHeap ((follows.heap.of_grows
      ((CodeHeap.emitAll_leaves reserved).of_error full)).rewind follows.heap.covered)
    entered := fun follows idle callers callees hidden _ =>
      follows.entered idle callers callees hidden
    back := fun follows _ follows' =>
      follows'.restore follows.entries.size follows.heap.covered }

theorem Follows.after (follows : b.Follows c) (op : Operation) : b.Follows (c.after op) :=
  ((follows_session b).run op fun _ _ => trivial).after follows

theorem Follows.finishWord (follows : b.Follows c) (isOpen : c.definition = some w) :
    b.Follows (stateAfter (finishWord w) c) :=
  (follows_session b).finishWord follows isOpen

theorem Follows.abandonWord (follows : b.Follows c) : b.Follows c.abandonWord :=
  (follows_session b).abandonWord follows

theorem beginWord_keeps (name : String) (signature : Signature) :
    Keeps b.Follows (beginWord name signature) fun _ => True :=
  (follows_session b).beginWord name signature

theorem endWord_keeps : Keeps b.Follows endWord fun _ => True := (follows_session b).endWord

end Compiler

end ForthJit
