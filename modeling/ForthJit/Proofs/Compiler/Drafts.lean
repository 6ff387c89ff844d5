import ForthJit.Proofs.Compiler.Clean
import ForthJit.Proofs.Compiler.Logged

/-!
# Deeds extend the open definition

Whatever is done while a definition is open extends it: the ledger still names exactly its
placeholders, and of the words staged before only branches that were closed have changed.  A copy of
another word's body is no exception, because finished words hold no placeholders.
-/

namespace ForthJit

namespace Action

/-- The ledger names every placeholder that an action puts into a definition, those among copied
words apart if they are `raw`. -/
theorem logs_of_copies {raw : InstrWord → Prop} {a : Action}
    (copies : a.Copies fun v => Final v ∨ raw v) : Emit.Logs raw [] a.emit fun _ => [] := by
  cases a with
  | literal value => exact Emit.logging.literal value
  | setLocal name => exact Emit.setLocal_logs name
  | getLocal name => exact Emit.logging.getLocalCalled name
  | instruction v clobbers => exact .bind (Emit.instruction_logs copies clobbers) fun _ => .pure _
  | primitive inputs outputs clobbers body =>
    exact Emit.primitiveBody_logs inputs outputs clobbers copies
  | call id callee => exact Emit.call_logs callee
  | inline id callee body => exact Emit.inlineBody_logs callee copies
  | ifPart => exact Emit.ifPart_logs
  | elsePart => exact Emit.elsePart_logs
  | thenPart => exact Emit.thenPart_logs
  | exit => exact Emit.exit_logs
  | raise => exact Emit.raise_logs
  | recurse => exact Emit.recurse_logs

theorem Copies.of_all {foreign : InstrWord → Prop} (all : ∀ v, foreign v) (a : Action) :
    a.Copies foreign := by
  cases a <;> first | exact all _ | exact fun v _ => all v | trivial

/-- Whatever an action puts into a definition, the ledger names its placeholders. -/
theorem logs (a : Action) : Emit.Logs (fun _ => True) [] a.emit fun _ => [] :=
  logs_of_copies (.of_all (fun _ => Or.inr trivial) a)

end Action

namespace Compiler

variable {raw : InstrWord → Prop} {may : Action → Prop} {c0 c c' c'' : Compiler} {deeds : List Deed}

/-- The definition that is open in `c` has grown to that of `c'`, and its ledger with it. -/
def Extends (raw : InstrWord → Prop) (c c' : Compiler) : Prop :=
  ∀ w, c.definition = some w → Draft.Logged ⟨c.heap, w⟩ raw [] →
    ∃ w', c'.definition = some w' ∧ Draft.Advances ⟨c.heap, w⟩ ⟨c'.heap, w'⟩ ∧
      Draft.Logged ⟨c'.heap, w'⟩ raw []

namespace Extends

theorem trans (first : Extends raw c c') (second : Extends raw c' c'') : Extends raw c c'' := by
  intro w isOpen logged
  obtain ⟨w', isOpen', advances, logged'⟩ := first w isOpen logged
  obtain ⟨w'', isOpen'', advances', logged''⟩ := second w' isOpen' logged'
  exact ⟨w'', isOpen'', advances.trans advances', logged''⟩

theorem of_same (definition : c'.definition = c.definition)
    (staged : c'.heap.staged = c.heap.staged) : Extends raw c c' := by
  intro w isOpen logged
  refine ⟨w, definition.trans isOpen, ⟨.refl w, ?_⟩, ?_⟩
  · rw [staged]
    exact .refl _
  · rw [Draft.Logged, staged]
    exact logged

theorem of_emit {w : Definition} {d : Draft} {m : Emit Unit} (logs : Emit.Logs raw [] m fun _ => [])
    (isOpen : c.definition = some w) (done : m c.settings ⟨c.heap, w⟩ = .ok () d)
    (definition : c'.definition = some d.word) (heap : c'.heap = d.heap) : Extends raw c c' := by
  intro w' isOpen' logged
  cases isOpen.symm.trans isOpen'
  rw [heap]
  exact ⟨d.word, definition, logs _ _ _ _ done logged⟩

end Extends

theorem Acted.extends (acted : Acted may c0 deeds c)
    (copies : ∀ deeds c w a, Acted may c0 deeds c → c.definition = some w → a.Fits c w → may a →
      a.Copies fun v => Final v ∨ raw v) : Extends raw c0 c := by
  induction acted with
  | start => exact .of_same rfl rfl
  | heap _ staged _ ih => exact ih.trans (.of_same rfl staged)
  | act acted isOpen fits allowed done ih =>
    exact ih.trans
      (.of_emit (Action.logs_of_copies (copies _ _ _ _ acted isOpen fits allowed)) isOpen
        done rfl rfl)

/-- A copied body is that of a finished word, so it is final. -/
theorem Clean.words (clean : c.Clean) {id : EntryId} {e : Entry} {code : CompiledWord}
    (found : c.dictionary.get? id = some e) (kind : e.kind = .compiled code) :
    ∀ w ∈ (c.heap.words code.layout.body code.layout.epilogue).toList, Final w := by
  intro w member
  obtain ⟨n, at_n⟩ := List.mem_iff_getElem?.1 member
  rw [Array.getElem?_toList, CodeHeap.words, Array.getElem?_extract] at at_n
  split at at_n
  · obtain ⟨v, holds, final⟩ := clean id e code found kind (code.layout.body + n)
      (Nat.le_add_right _ _) (by omega)
    obtain rfl := Option.some.inj (holds.symm.trans at_n)
    exact final
  · cases at_n

end Compiler

end ForthJit
