import ForthJit.Proofs.Compiler.Built
import ForthJit.Proofs.Compiler.Ways

/-!
# Rejected operations

A branch, an exit, a recursive call or a binding of a local is rejected if the pending values or the
open branches do not allow it.  Most of these operations find that out before they change anything,
so that the definition goes on as if they had not been asked for.  There are two exceptions.  `then`
has closed the branch when it finds that the two paths leave different numbers of values, and a
binding has declared its local when it finds no value to bind.  `rejections_exact` says that there
are no others, and that only the first lets a word be ended that does not leave the declared number
of values on every way; `word_of_unequal_paths` is such a word.
-/

namespace ForthJit

/-- The pending values or the open branches do not allow an operation. -/
def CompileError.isRejection : CompileError → Bool
  | .control _ | .arity _ => true
  | _ => false

/-- The paths of a branch leave different numbers of values. -/
def CompileError.isMismatch : CompileError → Bool
  | .control (.depthMismatch ..) => true
  | _ => false

/-- Branches, exits and bindings. -/
def Operation.isStructural : Operation → Bool
  | .ifPart | .elsePart | .thenPart | .exit | .raise | .recurse | .setLocal _ => true
  | _ => false

/-! ## Where rejections come from -/

namespace Emit

variable {α β : Type} {settings : Settings} {m : Emit α} {f : α → Emit β} {d d' : Draft}
  {e : CompileError}

/-- A failure of `m` is not a rejection. -/
def Accepts (settings : Settings) (m : Emit α) : Prop :=
  ∀ d e d', m settings d = .error e d' → e.isRejection = false

/-- If `m` is rejected, it has changed nothing, and the reason is not that paths differ. -/
def Checks (settings : Settings) (m : Emit α) : Prop :=
  ∀ d e d', m settings d = .error e d' → e.isRejection = true → d' = d ∧ e.isMismatch = false

namespace Accepts

theorem bind (first : Accepts settings m) (second : ∀ a, Accepts settings (f a)) :
    Accepts settings (m >>= f) := by
  intro d e d' error
  rcases bind_error error with failed | ⟨a, d1, -, failed⟩
  · exact first d e d' failed
  · exact second a d1 e d' failed

theorem of_technical (technical : Technical m) : Accepts settings m := fun d e d' error =>
  CompileError.of_technical (p := (·.isRejection = false)) (fun _ => rfl) (fun _ => rfl)
    (technical settings d e d' error)

theorem checks (accepts : Accepts settings m) : Checks settings m := by
  intro d e d' error rejected
  cases rejected.symm.trans (accepts d e d' error)

end Accepts

namespace Checks

/-- A check is followed by what cannot be rejected. -/
theorem bind (first : Checks settings m) (second : ∀ a, Accepts settings (f a)) :
    Checks settings (m >>= f) := by
  intro d e d' error rejected
  rcases bind_error error with failed | ⟨a, d1, -, failed⟩
  · exact first d e d' failed rejected
  · cases rejected.symm.trans (second a d1 e d' failed)

/-- What follows a check fails for technical reasons only. -/
theorem before (first : Checks settings m) (second : ∀ a, Technical (f a)) :
    Checks settings (m >>= f) :=
  bind first fun a => .of_technical (second a)

theorem arity (result : Except ArityError α) : Checks settings (arity result) := by
  intro d e d' error _
  cases result with
  | ok a => cases error
  | error e1 =>
    cases error
    exact ⟨rfl, rfl⟩

end Checks

theorem consume_checks (what : String) : Checks settings (consume what) := by
  intro d e d' error rejected
  have rest := tail_of error rfl
  split at rest
  · cases rest
    exact ⟨rfl, rfl⟩
  · replace rest := tail_of rest rfl
    cases convention : settings.convention with
    | register =>
      rw [convention] at rest
      cases rest
    | stack =>
      rw [convention] at rest
      refine Accepts.checks (.of_technical ?_) d e d' rest rejected
      exact .bind (Technical.laying.pop _) fun _ => .bind (.modifyWord _) fun _ => .pure _

theorem ifPart_checks : Checks settings ifPart :=
  .before (consume_checks _) fun _ => .bind (.spill _) fun _ => .bind (.onHeap _) fun _ =>
    .modifyWord _

theorem raise_checks : Checks settings raise :=
  .before (consume_checks _) fun _ => .raiseIfNonzero _

theorem elsePart_checks : Checks settings elsePart := by
  intro d e d' error rejected
  have rest := tail_of error rfl
  cases control : d.word.control with
  | nil =>
    rw [control] at rest
    cases rest
    exact ⟨rfl, rfl⟩
  | cons frame outer =>
    rw [control] at rest
    cases frame with
    | ifPart branch reg depth =>
      refine Accepts.checks (.of_technical ?_) d e d' rest rejected
      exact .bind (.modifyWord _) fun _ => .bind (.spill _) fun _ => .bind .word fun _ =>
        .bind (.onHeap _) fun _ => .bind .here fun _ => .bind (.assembled _) fun _ =>
          .bind (.onHeap _) fun _ => .modifyWord _
    | elsePart skip depth trueDepth =>
      cases rest
      exact ⟨rfl, rfl⟩

theorem exit_checks : Checks settings exit := by
  intro d e d' error rejected
  have rest := tail_of error rfl
  dsimp only at rest
  split at rest
  · refine Accepts.checks (.of_technical ?_) d e d' rest rejected
    exact .bind (.onHeap _) fun _ => .bind (.modifyWord _) fun _ => .modifyWord _
  · cases rest
    exact ⟨rfl, rfl⟩

theorem recurse_checks : Checks settings recurse := by
  intro d e d' error rejected
  have rest := tail_of (tail_of error rfl :) rfl
  exact Checks.before (.arity _) (fun _ => .bind (.clobber _) fun _ => .bind (.onHeap _) fun _ =>
    .bind (.onHeap _) fun _ => .bind (.modifyWord _) fun _ => .modifyWord _) d e d' rest rejected

/-- A local is declared before its value is found to be missing. -/
theorem setLocal_rejected {name : String} (error : setLocal name settings d = .error e d')
    (rejected : e.isRejection = true) :
    d' = ⟨d.heap, { d.word with locals := (d.word.locals.declare name).2 }⟩ ∧
      e.isMismatch = false := by
  have rest := tail_of (tail_of (tail_of error rfl :) rfl :) rfl
  exact Checks.before (consume_checks _) (fun _ => .modifyWord _) _ e d' rest rejected

/-- `join` only compares. -/
theorem join_rejected {first second : Option Nat}
    (error : join first second settings d = .error e d') : e.isMismatch = true ∧ d' = d := by
  unfold join at error
  cases first with
  | none => cases second <;> cases error
  | some a =>
    cases second with
    | none => cases error
    | some b =>
      dsimp only at error
      split at error
      · cases error
        exact ⟨rfl, rfl⟩
      · cases error

/-- The branch to the end of the paths is patched before they are compared. -/
theorem patchAndJoin_rejected {result : Except EncodeError Instruction} {branch : Nat}
    {first second : Option Nat}
    (error : (do patch branch (← assembled result); join first second : Emit Unit) settings d =
      .error e d') (rejected : e.isRejection = true) : e.isMismatch = true ∧ d'.word = d.word := by
  rcases bind_error error with failed | ⟨_, d1, got, rest⟩
  · cases rejected.symm.trans (Accepts.of_technical (.assembled _) _ _ _ failed)
  obtain ⟨-, rfl⟩ := assembled_ok_iff.1 got
  rcases bind_error rest with failed | ⟨_, d2, patched, rest⟩
  · cases rejected.symm.trans (Accepts.of_technical (.onHeap _) _ _ _ failed)
  obtain ⟨-, rfl⟩ := patch_ok patched
  obtain ⟨mismatch, rfl⟩ := join_rejected rest
  exact ⟨mismatch, rfl⟩

/-- `then` is rejected if no branch is open, or after it has closed a branch whose paths differ. -/
theorem thenPart_rejected (error : thenPart settings d = .error e d')
    (rejected : e.isRejection = true) :
    (d' = d ∧ e.isMismatch = false) ∨
      ∃ frame outer locals, e.isMismatch = true ∧ d.word.control = frame :: outer ∧
        d'.word = { d.word with control := outer, locals } := by
  have rest := tail_of error rfl
  cases control : d.word.control with
  | nil =>
    rw [control] at rest
    cases rest
    exact Or.inl ⟨rfl, rfl⟩
  | cons frame outer =>
    rw [control] at rest
    rcases bind_error (tail_of rest rfl :) with failed | ⟨_, d2, barred, rest⟩
    · cases rejected.symm.trans (Accepts.of_technical (.spill _) _ _ _ failed)
    obtain ⟨-, rfl⟩ := spill_ok barred
    replace rest := tail_of (tail_of rest rfl :) rfl
    cases frame with
    | ifPart branch reg depth | elsePart skip depth trueDepth =>
      obtain ⟨mismatch, same⟩ := patchAndJoin_rejected rest rejected
      exact Or.inr ⟨_, outer, _, mismatch, rfl, same⟩

end Emit

namespace Compiler

variable {c c' : Compiler} {w : Definition} {op : Operation} {e : CompileError}

/-- Why a branch, an exit or a binding is rejected. -/
def rejection? (c : Compiler) (op : Operation) : Option CompileError :=
  match op.run c with
  | .error e _ => if op.isStructural && e.isRejection then some e else none
  | .ok .. => none

/-- The operation binds a local that the open definition does not have yet. -/
def declares (c : Compiler) (op : Operation) : Bool :=
  match op, c.definition with
  | .setLocal name, some w => (w.locals.find? name).isNone
  | _, _ => false

theorem rejection?_eq_some :
    c.rejection? op = some e ↔
      op.run c = .error e (c.after op) ∧ op.isStructural = true ∧ e.isRejection = true := by
  unfold rejection?
  cases outcome : op.run c with
  | ok a c' => simp
  | error e' c' =>
    have left : c.after op = c' := stateAfter_of_error outcome
    rw [left]
    constructor
    · intro same
      dsimp only at same
      split at same
      · next both =>
        cases same
        exact ⟨rfl, Bool.and_eq_true_iff.1 both⟩
      · cases same
    · rintro ⟨same, structural, rejected⟩
      cases same
      simp [structural, rejected]

theorem emitting_error {action : Emit Unit} (error : emitting action c = .error e c')
    (rejected : e.isRejection = true) :
    ∃ w d, c.definition = some w ∧ action c.settings ⟨c.heap, w⟩ = .error e d ∧
      c' = { c with heap := d.heap, definition := some d.word } := by
  cases isOpen : c.definition with
  | none =>
    rw [emitting_none isOpen] at error
    cases error
    cases rejected
  | some w =>
    rw [emitting_some isOpen] at error
    split at error
    · cases error
    · next e1 d failed =>
      cases error
      exact ⟨w, d, rfl, failed, rfl⟩

/-- An operation that checks first leaves the whole compiler as it was. -/
theorem emitting_rejected {action : Emit Unit} (checks : Emit.Checks c.settings action)
    (error : emitting action c = .error e c') (rejected : e.isRejection = true) :
    c' = c ∧ e.isMismatch = false := by
  obtain ⟨w, d, isOpen, failed, rfl⟩ := emitting_error error rejected
  obtain ⟨rfl, alike⟩ := checks _ e d failed rejected
  refine ⟨?_, alike⟩
  rw [← isOpen]

/-- Once a recursive call is compiled, recording it does not fail. -/
theorem recurse_error (error : recurse c = .error e c') :
    emitting Emit.recurse c = .error e c' := by
  cases first : emitting Emit.recurse c with
  | error e1 c1 =>
    have failed : recurse c = .error e1 c1 := bind_of_error first _
    cases failed.symm.trans error
    rfl
  | ok _ c1 =>
    have rest : recurse c = (do
        let word ← active
        modifyDictionary fun d => d.addCall word.entry word.entry) c1 := bind_of_ok first _
    obtain ⟨w, d, -, -, rfl⟩ := emitting_ok first
    cases rest.symm.trans error

/-- What a rejected operation leaves: everything as it was, or a branch closed by `then`, or a local
declared. -/
theorem rejected_cases (rejected : c.rejection? op = some e) :
    (c.after op = c ∧ e.isMismatch = false ∧ c.declares op = false) ∨
      (op = .thenPart ∧ e.isMismatch = true ∧ ∃ w frame outer heap locals,
        c.definition = some w ∧ w.control = frame :: outer ∧
        c.after op = { c with heap, definition := some { w with control := outer, locals } }) ∨
      (e.isMismatch = false ∧ c.declares op = true ∧ ∃ w name,
        op = .setLocal name ∧ c.definition = some w ∧ w.locals.find? name = none ∧
        c.after op =
          { c with definition := some { w with locals := w.locals ++ [{ name }] } }) := by
  obtain ⟨error, structural, rejection⟩ := rejection?_eq_some.1 rejected
  cases op with
  | ifPart =>
    obtain ⟨same, alike⟩ := emitting_rejected Emit.ifPart_checks error rejection
    exact Or.inl ⟨same, alike, rfl⟩
  | elsePart =>
    obtain ⟨same, alike⟩ := emitting_rejected Emit.elsePart_checks error rejection
    exact Or.inl ⟨same, alike, rfl⟩
  | exit =>
    obtain ⟨same, alike⟩ := emitting_rejected Emit.exit_checks error rejection
    exact Or.inl ⟨same, alike, rfl⟩
  | raise =>
    obtain ⟨same, alike⟩ := emitting_rejected Emit.raise_checks error rejection
    exact Or.inl ⟨same, alike, rfl⟩
  | recurse =>
    obtain ⟨same, alike⟩ := emitting_rejected Emit.recurse_checks (recurse_error error) rejection
    exact Or.inl ⟨same, alike, rfl⟩
  | thenPart =>
    obtain ⟨w, d, isOpen, failed, left⟩ := emitting_error error rejection
    rcases Emit.thenPart_rejected failed rejection with
      ⟨rfl, alike⟩ | ⟨frame, outer, locals, mismatch, control, same⟩
    · rw [← isOpen] at left
      exact Or.inl ⟨left, alike, rfl⟩
    · rw [same] at left
      exact Or.inr (Or.inl ⟨rfl, mismatch, w, frame, outer, d.heap, locals, isOpen, control, left⟩)
  | setLocal name =>
    obtain ⟨w, d, isOpen, failed, left⟩ := emitting_error error rejection
    obtain ⟨rfl, alike⟩ := Emit.setLocal_rejected failed rejection
    have declares : c.declares (.setLocal name) = (w.locals.find? name).isNone := by
      unfold Compiler.declares
      rw [isOpen]
    dsimp only [Locals.declare] at left
    cases found : w.locals.find? name with
    | none =>
      rw [found] at left declares
      exact Or.inr (Or.inr ⟨alike, declares, w, name, rfl, isOpen, found, left⟩)
    | some id =>
      rw [found] at left declares
      rw [← isOpen] at left
      exact Or.inl ⟨left, alike, declares⟩
  | _ => cases structural

/-! ## Going on after a rejection -/

/-- The operation is rejected for any reason but that two paths differ. -/
def passesOver (c : Compiler) (op : Operation) : Bool :=
  match c.rejection? op with
  | some e => !e.isMismatch
  | none => false

/-- The operation is rejected, and neither closes a branch nor declares a local. -/
def turnsAway (c : Compiler) (op : Operation) : Bool := c.passesOver op && !c.declares op

/-- The operations that are not turned away. -/
def admitted (c : Compiler) : List Operation → List Operation
  | [] => []
  | op :: ops => if c.turnsAway op then c.admitted ops else op :: (c.after op).admitted ops

/-- All operations belong into a body, and each succeeds or is passed over. -/
def goesOn (c : Compiler) : List Operation → Bool
  | [] => true
  | op :: ops =>
    op.inBody && ((success? op.run c).isSome || c.passesOver op) && (c.after op).goesOn ops

/-- How `ways` go on through the operations that are not passed over. -/
def waysFrom (c : Compiler) : List Operation → (ways : List Way) → List Way
  | [], ways => ways
  | op :: ops, ways =>
    (c.after op).waysFrom ops
      (if c.passesOver op then ways else ways.flatMap (Way.next op (c.effect op)))

/-- An operation that is passed over changes nothing, or declares a local. -/
theorem passesOver_cases (passed : c.passesOver op = true) :
    (c.after op = c ∧ c.declares op = false) ∨
      (c.declares op = true ∧ ∃ w name, c.definition = some w ∧
        c.after op =
          { c with definition := some { w with locals := w.locals ++ [{ name }] } }) := by
  unfold passesOver at passed
  cases rejected : c.rejection? op with
  | none =>
    rw [rejected] at passed
    cases passed
  | some e =>
    rw [rejected] at passed
    rcases rejected_cases rejected with
      ⟨same, -, old⟩ | ⟨-, mismatch, -⟩ | ⟨-, new, w, name, -, isOpen, -, left⟩
    · exact Or.inl ⟨same, old⟩
    · dsimp only at passed
      rw [mismatch] at passed
      cases passed
    · exact Or.inr ⟨new, w, name, isOpen, left⟩

theorem turnsAway_after (away : c.turnsAway op = true) : c.after op = c := by
  obtain ⟨passed, old⟩ := Bool.and_eq_true_iff.1 away
  rcases passesOver_cases passed with ⟨same, -⟩ | ⟨new, -⟩
  · exact same
  · rw [new] at old
    cases old

/-- The definition goes on as if the operations that are turned away had not been asked for. -/
theorem foldl_admitted (c : Compiler) (ops : List Operation) :
    (c.admitted ops).foldl after c = ops.foldl after c := by
  induction ops generalizing c with
  | nil => rfl
  | cons op ops ih =>
    rw [admitted]
    split
    · next away =>
      rw [List.foldl_cons, turnsAway_after away]
      exact ih c
    · exact ih _

theorem passesOver_agrees (passed : c.passesOver op = true) (isOpen : c.definition = some w) :
    ∃ w', (c.after op).definition = some w' ∧ w'.signature = w.signature ∧
      ∀ way : Way, way.Agrees w → way.Agrees w' := by
  rcases passesOver_cases passed with ⟨same, -⟩ | ⟨-, w0, name, isOpen0, left⟩
  · rw [same]
    exact ⟨w, isOpen, rfl, fun _ agrees => agrees⟩
  · obtain rfl := Option.some.inj (isOpen.symm.trans isOpen0)
    rw [left]
    refine ⟨_, rfl, rfl, fun way agrees => ?_⟩
    -- No way depends on the locals.
    cases way with
    | running depth => exact agrees
    | skipping toElse nested depth => cases toElse <;> exact agrees
    | returned depth => exact agrees

/-- The definition agrees with every way through the operations. -/
theorem agrees_waysFrom {ops : List Operation} {ways : List Way} (isOpen : c.definition = some w)
    (each : c.goesOn ops = true) (agree : ∀ way ∈ ways, way.Agrees w) :
    ∃ w', (ops.foldl after c).definition = some w' ∧ w'.signature = w.signature ∧
      ∀ way ∈ c.waysFrom ops ways, way.Agrees w' := by
  induction ops generalizing c w ways with
  | nil => exact ⟨w, isOpen, rfl, agree⟩
  | cons op ops ih =>
    rw [goesOn, Bool.and_eq_true, Bool.and_eq_true, Bool.or_eq_true] at each
    obtain ⟨⟨inBody, outcome⟩, later⟩ := each
    rw [waysFrom]
    split
    · next passed =>
      obtain ⟨w', isOpen', signature, onward⟩ := passesOver_agrees passed isOpen
      obtain ⟨w'', isOpen'', signature', final⟩ :=
        ih isOpen' later fun way member => onward way (agree way member)
      exact ⟨w'', isOpen'', signature'.trans signature, final⟩
    · next through =>
      have success := outcome.resolve_right through
      obtain ⟨⟨_, c'⟩, done⟩ := Option.isSome_iff_exists.1 success
      have ok := success?_eq_some.1 done
      obtain ⟨w', isOpen', signature, onward⟩ := agrees_next isOpen inBody ok
      have left : c.after op = c' := stateAfter_of_ok ok
      obtain ⟨w'', isOpen'', signature', final⟩ := ih (left ▸ isOpen') later fun way member => by
        obtain ⟨before, old, new⟩ := List.mem_flatMap.1 member
        exact onward before (agree before old) way new
      exact ⟨w'', isOpen'', signature'.trans signature, final⟩

/-- If a definition has begun, no `then` in it was rejected for paths that differ and it can be
ended, then every way through it leaves the declared number of values. -/
theorem ways_leave_outputs {b c0 : Compiler} {name : String} {signature : Signature}
    {id id' : EntryId} {ops : List Operation} (begun : beginWord name signature b = .ok id c0)
    (each : c0.goesOn ops = true) (ended : endWord (ops.foldl after c0) = .ok id' c') :
    ∀ way ∈ c0.waysFrom ops [.running signature.inputs],
      way = .running signature.outputs ∨ way = .returned signature.outputs := by
  have start : ∃ w, c0.definition = some w ∧ w.signature = signature ∧ w.depth = signature.inputs ∧
      w.unreachable = false := by
    obtain ⟨-, -, -, heap, -, rfl, rfl⟩ := beginWord_ok begun
    exact ⟨_, rfl, rfl, rfl, rfl⟩
  obtain ⟨w, isOpen, rfl, depth, reached⟩ := start
  have begins : ∀ way ∈ [Way.running w.signature.inputs], way.Agrees w := by
    intro way member
    obtain rfl := List.mem_singleton.1 member
    exact ⟨reached, by rw [depth]⟩
  obtain ⟨w', isOpen', signature, agree⟩ := agrees_waysFrom isOpen each begins
  obtain ⟨control, balanced⟩ := endWord_balanced isOpen' ended
  intro way member
  rw [← signature]
  exact (agree way member).ended control balanced

/-- A rejected operation changes nothing, unless it is a `then` whose paths differ, which has closed
the branch, or binds a new local, which it has declared.  So a definition goes on as if the
operations that are turned away had not been asked for.  If each of its operations succeeds or is
rejected, none for paths that differ, and the word can be ended, then every way through it leaves
the declared number of values. -/
theorem rejections_exact (c : Compiler) (ops : List Operation) :
    (∀ (op : Operation) (e : CompileError), c.rejection? op = some e →
      (c.after op = c ∧ e.isMismatch = false ∧ c.declares op = false) ∨
      (op = .thenPart ∧ e.isMismatch = true ∧ ∃ w frame outer heap locals,
        c.definition = some w ∧ w.control = frame :: outer ∧
        c.after op = { c with heap, definition := some { w with control := outer, locals } }) ∨
      (e.isMismatch = false ∧ c.declares op = true ∧ ∃ w name,
        op = .setLocal name ∧ c.definition = some w ∧ w.locals.find? name = none ∧
        c.after op = { c with definition := some { w with locals := w.locals ++ [{ name }] } })) ∧
    (c.admitted ops).foldl after c = ops.foldl after c ∧
    ∀ (b c' : Compiler) (name : String) (signature : Signature) (id id' : EntryId),
      beginWord name signature b = .ok id c → c.goesOn ops = true →
      endWord (ops.foldl after c) = .ok id' c' →
      ∀ way ∈ c.waysFrom ops [.running signature.inputs],
        way = .running signature.outputs ∨ way = .returned signature.outputs := by
  refine ⟨fun op e rejected => rejected_cases rejected, foldl_admitted c ops, ?_⟩
  intro b c' name signature id id' begun goesOn ended
  exact ways_leave_outputs begun goesOn ended

/-- Five operations around a branch are rejected; four of them are turned away, the fifth declares
`a`. -/
theorem rejections_exact_around_branch :
    ∃ b id c id' c', create {} {} = .ok b ∧
      beginWord "one-or-two" { inputs := 1, outputs := 1 } b = .ok id c ∧
      let ops := [.elsePart, .ifPart, .exit, .literal 1, .elsePart, .recurse, .setLocal "a",
        .literal 2, .thenPart, .thenPart]
      endWord (ops.foldl after c) = .ok id' c' ∧ c.goesOn ops = true ∧
      (c.admitted ops).length = 6 ∧ c.rejection? .elsePart = some (.control .elseAlone) ∧
      c.waysFrom ops [.running 1] = [.running 1, .running 1] ∧ c.after .elsePart = c ∧
      (c.admitted ops).foldl after c = ops.foldl after c ∧
      ∀ way ∈ c.waysFrom ops [.running 1], way = .running 1 ∨ way = .returned 1 := by
  let ops : List Operation := [.elsePart, .ifPart, .exit, .literal 1, .elsePart, .recurse,
    .setLocal "a", .literal 2, .thenPart, .thenPart]
  have state : (create {} {}).toOption.bind (fun b =>
      (success? (beginWord "one-or-two" { inputs := 1, outputs := 1 }) b).bind fun (_, c) =>
        (success? endWord (ops.foldl after c)).map fun _ =>
          (c.goesOn ops, (c.admitted ops).length, c.rejection? .elsePart,
            c.waysFrom ops [.running 1])) =
      some (true, 6, some (.control .elseAlone), [.running 1, .running 1]) := by
    decide +kernel
  obtain ⟨b, created, state⟩ := toOption_bind.1 state
  obtain ⟨id, c, begun, state⟩ := success?_bind.1 state
  obtain ⟨id', c', ended, state⟩ := success?_map.1 state
  simp only [Prod.mk.injEq] at state
  obtain ⟨goesOn, length, rejected, ways⟩ := state
  obtain ⟨left, onward, leave⟩ := rejections_exact c ops
  have same : c.after .elsePart = c := by
    rcases left .elsePart _ rejected with ⟨same, -⟩ | ⟨other, -⟩ | ⟨-, -, w, name, other, -⟩
    · exact same
    · cases other
    · cases other
  have leave := leave b c' _ _ id id' begun goesOn ended
  simp only [Nat.cast_one] at leave
  exact ⟨b, id, c, id', c', created, begun, ended, goesOn, length, rejected,
    ways, same, onward, leave⟩

/-- A `then` that is rejected because its paths leave two values and one lets the word be ended,
which it could not be before. -/
theorem word_of_unequal_paths :
    ∃ b id c id' c', create {} {} = .ok b ∧
      beginWord "x" { inputs := 1, outputs := 1 } b = .ok id c ∧
      let ops := [.ifPart, .literal 1, .literal 2, .elsePart, .literal 3]
      let inside := ops.foldl after c
      inside.rejection? .thenPart = some (.control (.depthMismatch 2 1)) ∧
      success? endWord inside = none ∧ endWord (inside.after .thenPart) = .ok id' c' ∧
      c.waysFrom (ops ++ [.thenPart]) [.running 1] = [.running 2, .running 1] := by
  let ops : List Operation := [.ifPart, .literal 1, .literal 2, .elsePart, .literal 3]
  have state : (create {} {}).toOption.bind (fun b =>
      (success? (beginWord "x" { inputs := 1, outputs := 1 }) b).bind fun (_, c) =>
        let inside := ops.foldl after c
        (success? endWord (inside.after .thenPart)).map fun _ =>
          (inside.rejection? .thenPart, (success? endWord inside).isNone,
            c.waysFrom (ops ++ [.thenPart]) [.running 1])) =
      some (some (.control (.depthMismatch 2 1)), true, [.running 2, .running 1]) := by
    decide +kernel
  obtain ⟨b, created, state⟩ := toOption_bind.1 state
  obtain ⟨id, c, begun, state⟩ := success?_bind.1 state
  obtain ⟨id', c', ended, state⟩ := success?_map.1 state
  simp only [Prod.mk.injEq] at state
  obtain ⟨mismatch, unfinished, ways⟩ := state
  exact ⟨b, id, c, id', c', created, begun, mismatch,
    Option.isNone_iff_eq_none.1 unfinished, ended, ways⟩

end Compiler

end ForthJit
