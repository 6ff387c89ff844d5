import ForthJit.Proofs.Compiler.Built
import ForthJit.Proofs.Compiler.Placed
import ForthJit.Proofs.Dictionary.Closure

/-!
# A definition and the word that it becomes

`Compiler.Ended` says what ending a definition leaves of it: the parts that its word was laid out
with, the words on the heap and the entry.  `Compiler.Worked.sound` says what its body is made of,
however it was worked on: every word has an origin, and calls go to words that were there before.
-/

namespace ForthJit

/-- Publication that succeeds gets as far as it should. -/
theorem CodeHeap.syncTo_reaches {stop : Nat} {h h' : CodeHeap} {report : SyncReport}
    (ok : syncTo stop h = .ok report h') : min stop h.here ≤ h'.published := by
  rcases syncTo_cases stop h with ⟨done, same⟩ |
    ⟨-, host, ⟨a, l, failed⟩ | ⟨a, l, failed⟩ | copied⟩
  · cases ok.symm.trans same
    exact done
  · cases ok.symm.trans failed
  · cases ok.symm.trans failed
  · cases ok.symm.trans copied
    exact Nat.le_refl _

namespace Dictionary

/-- A recorded call is among the callees, with those recorded before. -/
theorem addCall_callees {d : Dictionary} (wellFormed : d.WellFormed) {w callee : Nat}
    (last : w + 1 = d.size) (older : callee ≤ w) {e' : Entry}
    (found' : (d.addCall w callee).get? w = some e') :
    ∃ e, d.get? w = some e ∧ core e' = core e ∧
      ∀ id, id ∈ e'.callees ↔ id = callee ∨ id ∈ e.callees := by
  obtain ⟨e, found⟩ := get?_of_lt (show w < d.size by omega)
  have linked : ∃ e1, (d.link w callee).get? w = some e1 ∧ core e1 = core e ∧
      e1.callees = insertAscending callee e.callees := by
    simp only [link, get?_update, found, if_true, Option.map_some]
    split
    · exact ⟨_, rfl, rfl, rfl⟩
    · exact ⟨_, rfl, rfl, rfl⟩
  obtain ⟨e1, found1, same, callees⟩ := linked
  obtain ⟨flags, -, now⟩ := (wellFormed.addCall last older).2.newest e1 found1
  obtain rfl := Option.some.inj (found'.symm.trans now)
  refine ⟨e, found, same, fun id => ?_⟩
  show id ∈ e1.callees ↔ _
  rw [callees, mem_insertAscending]

theorem publish_newest {d : Dictionary} {w : EntryId} {e : Entry} (found : d.get? w = some e) :
    (d.publish w).size = d.size ∧ (d.publish w).get? w = some { e with visible := true } := by
  have shown :
      (d.publish w).entries = (d.update w fun e => { e with visible := true }).entries := by
    simp only [Dictionary.publish, found, Dictionary.update]
  have now : (d.publish w).get? w = (d.update w fun e => { e with visible := true }).get? w :=
    congrArg (·[w]?) shown
  refine ⟨(congrArg Array.size shown).trans (size_update ..), ?_⟩
  rw [now, get?_update, if_pos rfl, found]
  rfl

end Dictionary

namespace Compiler

variable {b c c' : Compiler} {w : Definition}

variable {e : Entry} {id : EntryId} {code : CompiledWord} {name : String} {signature : Signature}
  {c0 : Compiler}

/-- Of an older entry, only the callers can have changed. -/
theorem Follows.older (start : b.Follows b) (follows : b.Follows c) {id : Nat}
    (older : id < b.dictionary.size) (found : c.dictionary.get? id = some e) :
    ∃ e0, b.dictionary.get? id = some e0 ∧ e = { e0 with callers := e.callers } := by
  obtain ⟨e0, found0, same⟩ := follows.kind older found
  refine ⟨e0, found0, ?_⟩
  have whole : ∀ {d : Dictionary} {f : Entry}, d.WellFormed → d.get? id = some f →
      f.callees.filter (· < b.dictionary.size) = f.callees := by
    intro d f wellFormed present
    refine List.filter_eq_self.2 fun j member => ?_
    simpa using Nat.lt_of_le_of_lt (wellFormed.callees id f present j member) older
  have callees : e.callees = e0.callees := by
    rw [← whole follows.dictionary found, ← whole start.dictionary found0]
    exact congrArg Entry.callees same
  obtain ⟨name, kind, inputs, outputs, clobbers, flags, callees', callers, visible⟩ := e
  obtain ⟨name0, kind0, inputs0, outputs0, clobbers0, flags0, callees0, callers0, visible0⟩ := e0
  simp only [Entry.upTo, Entry.mk.injEq] at same callees ⊢
  exact ⟨same.1, same.2.1, same.2.2.1, same.2.2.2.1, same.2.2.2.2.1, same.2.2.2.2.2.1, callees,
    trivial, same.2.2.2.2.2.2.2.2⟩

/-- An entry that was there still is, if with other callers. -/
theorem Follows.kept (start : b.Follows b) (follows : b.Follows c)
    (found : b.dictionary.get? id = some e) :
    ∃ callers, c.dictionary.get? id = some { e with callers } := by
  have older : (id : Nat) < b.dictionary.size := Dictionary.get?_lt found
  obtain ⟨f, found'⟩ := Dictionary.get?_of_lt (Nat.lt_of_lt_of_le older follows.entries.size)
  obtain ⟨e0, found0, same⟩ := start.older follows older found'
  obtain rfl := Option.some.inj (found.symm.trans found0)
  rw [same] at found'
  exact ⟨_, found'⟩

/-- The entry `id` of `c` is a compiled word and not the one that is being defined. -/
structure HasWord (c : Compiler) (id : EntryId) (e : Entry) (code : CompiledWord) : Prop where
  found : c.dictionary.get? id = some e
  kind : e.kind = .compiled code
  finished : ∀ w, c.definition = some w → id ≠ w.entry

/-- The entry `id` and its code, if it is a finished word. -/
def finished? (c : Compiler) (id : EntryId) : Option (Entry × CompiledWord) :=
  if c.definition.any (·.entry = id) then none
  else (c.dictionary.get? id).bind fun e => e.compiled?.map (e, ·)

theorem finished?_eq_some : c.finished? id = some (e, code) ↔ c.HasWord id e code := by
  unfold finished?
  constructor
  · intro finished
    split at finished
    · cases finished
    · next closed =>
      obtain ⟨e', found, compiled⟩ := Option.bind_eq_some_iff.1 finished
      obtain ⟨code', isCode, same⟩ := Option.map_eq_some_iff.1 compiled
      cases same
      refine ⟨found, Entry.compiled?_eq_some.1 isCode, ?_⟩
      rintro w isOpen rfl
      simp [isOpen] at closed
  · rintro ⟨found, kind, closed⟩
    have other : c.definition.any (·.entry = id) = false := by
      cases isOpen : c.definition with
      | none => rfl
      | some w => exact decide_eq_false fun same => closed w isOpen same.symm
    rw [other, if_neg Bool.false_ne_true, found, Option.bind_some, Entry.compiled?_eq_some.2 kind]
    rfl

theorem finished?_bind {α : Type} {f : Entry × CompiledWord → Option α} {a : α} :
    (c.finished? id).bind f = some a ↔ ∃ e code, c.HasWord id e code ∧ f (e, code) = some a := by
  simp [Option.bind_eq_some_iff, finished?_eq_some]

theorem finished?_map {α : Type} {f : Entry × CompiledWord → α} {a : α} :
    (c.finished? id).map f = some a ↔ ∃ e code, c.HasWord id e code ∧ f (e, code) = a := by
  simp [finished?_eq_some]

theorem HasWord.of_follows (word : b.HasWord id e code) (start : b.Follows b)
    (follows : b.Follows c) : ∃ callers, c.HasWord id { e with callers } code := by
  obtain ⟨callers, found⟩ := start.kept follows word.found
  refine ⟨callers, found, word.kind, fun w isOpen same => ?_⟩
  have older : (id : Nat) < b.dictionary.size := Dictionary.get?_lt word.found
  rw [same] at older
  exact absurd (follows.definition w isOpen).entry (Nat.not_le.2 older)

/-- Filling in the code of an entry changes nothing else but its flags. -/
theorem coded_view (throws : Bool) (finished : Finished) (wellFormed : c.dictionary.WellFormed)
    (last : id + 1 = c.dictionary.size) (before : c.dictionary.get? id = some e) :
    ∃ flags, (c.coded id throws finished).get? id =
        some { e with kind := .compiled finished.code, clobbers := finished.clobbers, flags } ∧
      flags.throws = (throws || e.flags.throws) ∧ flags.autoTry = e.flags.autoTry := by
  unfold coded
  generalize updated : (c.dictionary.update id fun e =>
    { e with kind := .compiled finished.code, clobbers := finished.clobbers }) = d
  have found : d.get? id =
      some { e with kind := .compiled finished.code, clobbers := finished.clobbers } := by
    rw [← updated, Dictionary.get?_update, if_pos rfl, before]
    rfl
  cases throws with
  | false => exact ⟨e.flags, found, rfl, rfl⟩
  | true =>
    have newest : id + 1 = d.size := by
      rw [← updated, Dictionary.size_update]
      exact last
    have updated' : d.WellFormed := by
      rw [← updated]
      exact wellFormed.update fun _ => ⟨rfl, rfl, rfl, rfl, rfl⟩
    obtain ⟨flags, -, marked⟩ := (updated'.markThrows newest).2.newest _ found
    obtain ⟨throws, e1, found1, autoTry⟩ := Dictionary.markThrows_throws marked
    obtain rfl := Option.some.inj (found.symm.trans found1)
    exact ⟨flags, marked, throws, autoTry⟩

/-- `c'` is `c` after its definition `w`, opened in `b`, has ended: its word was laid out with the
parts `p` and has the code `code`, and its entry `e` has become `e'`. -/
structure Ended (b c : Compiler) (w : Definition) (c' : Compiler) (p : LayoutParts) (laid : Laid)
    (d : Draft) (code : CompiledWord) (e e' : Entry) : Prop where
  laidOut : Emit.LaidOut (c.throwing w) (c.settings.convention.errorReg w.signature.outputs)
    ⟨c.heap, w⟩ p laid d
  final : ∀ i v, w.start ≤ i → i < laid.layout.data → d.heap.word? i = some v → Final v
  layout : code.layout = laid.layout
  frameSize : code.frameSize = laid.frameSize
  leaf : code.leaf = w.leaf
  pcRelative : code.pcRelative = w.pcRelative
  hasBranches : code.hasBranches = w.hasBranches
  earlyReturn : code.earlyReturn = w.earlyReturn
  staged : c'.heap.staged = d.heap.staged
  published : c'.heap.published = c'.heap.here
  entry : w.entry = b.dictionary.size
  size : c'.dictionary.size = b.dictionary.size + 1
  before : c.dictionary.get? b.dictionary.size = some e
  after : c'.dictionary.get? b.dictionary.size = some e'
  kind : e'.kind = .compiled code
  clobbers : e'.clobbers = laid.clobbers
  callees : e'.callees = e.callees
  inputs : e'.inputs = e.inputs
  outputs : e'.outputs = e.outputs
  throws : e'.flags.throws = c.throwing w
  autoTry : e'.flags.autoTry = e.flags.autoTry

theorem finishWord_ended (opened : b.Opened c) (isOpen : c.definition = some w)
    (ok : finishWord w c = .ok id c') :
    ∃ p laid d code e e', Ended b c w c' p laid d code e e' := by
  have follows := opened.follows.finishWord isOpen
  rw [stateAfter_of_ok ok] at follows
  obtain ⟨finished, c1, heap, published, emitted, synced, rfl⟩ := finishWord_ok ok
  obtain ⟨w0, d, isOpen0, made, rfl⟩ := emitting_ok emitted
  obtain rfl := Option.some.inj (isOpen.symm.trans isOpen0)
  have newest : w.entry + 1 = c.dictionary.size := (opened.follows.definition w isOpen).newest.symm
  have entry : w.entry = b.dictionary.size := Nat.succ.inj (newest.trans opened.newest)
  obtain ⟨e, before⟩ := Dictionary.get?_of_lt (show w.entry < c.dictionary.size from newest.le)
  obtain ⟨flags, coded, throws, autoTry⟩ := coded_view (c.throwing w) finished
    opened.follows.dictionary newest before
  have thrown : flags.throws = c.throwing w := by
    rw [throws, throwing, before, Bool.or_assoc]
    exact congrArg _ (Bool.or_self _)
  obtain ⟨laid, laying, final, clobbers, layout, frameSize, leaf, pcRelative, hasBranches,
    earlyReturn⟩ := Emit.finish_ok made
  obtain ⟨p, laidOut⟩ := Emit.layOut_ok laying
  have word := laidOut.word
  rw [word] at final leaf pcRelative hasBranches earlyReturn
  have staged : heap.staged = d.heap.staged := by
    have same := (CodeHeap.syncTo_same finished.code.layout.stop d.heap).1
    rwa [stateAfter_of_ok synced] at same
  have size : (c.coded w.entry (c.throwing w) finished).size = w.entry + 1 :=
    (opened.follows.coded isOpen (c.throwing w) finished).2.1
  obtain ⟨published, after⟩ := Dictionary.publish_newest coded
  refine ⟨p, laid, d, finished.code, e,
    { e with
      kind := .compiled finished.code, clobbers := finished.clobbers, flags, visible := true },
    laidOut, final, layout, frameSize, leaf, pcRelative, hasBranches, earlyReturn, staged, ?_,
    entry, published.trans (size.trans (congrArg Nat.succ entry)), entry ▸ before,
    entry.symm ▸ after, rfl, clobbers, rfl, rfl, rfl, thrown, autoTry⟩
  -- Everything up to the end of the word has been published.
  have below : heap.published ≤ heap.here := follows.heap.consistent.published_le
  have stop : finished.code.layout.stop = d.heap.here := by
    rw [layout, laidOut.here, laidOut.layout]
    rfl
  have reached : min finished.code.layout.stop d.heap.here ≤ heap.published :=
    CodeHeap.syncTo_reaches synced
  refine Nat.le_antisymm below ?_
  show heap.here ≤ heap.published
  have size : heap.here = d.heap.here := congrArg Array.size staged
  omega

/-! ## The body of a definition -/

/-- What a definition begun in `b` is made of, if it calls the words of `called`. -/
def sources (b : Compiler) (raw : InstrWord → RegSet → Prop) (called : Set EntryId) : Sources where
  raw := raw
  callee := fun entry clobbers => ∃ id ∈ called, ∃ e code, b.dictionary.get? id = some e ∧
    e.kind = .compiled code ∧ code.layout.entry = entry ∧ e.clobbers = clobbers
  start := b.heap.here

/-- The body of every word that may be copied can be moved. -/
def Copyable (b : Compiler) (raw : InstrWord → RegSet → Prop) : Prop :=
  ∀ id e code, b.dictionary.get? id = some e → e.kind = .compiled code →
    code.inlineRefusal? e.flags.throws = none → ∀ i, code.layout.body ≤ i →
      i < code.layout.epilogue → ∃ v, b.heap.word? i = some v ∧ Movable raw e.clobbers v

variable {strict : Prop} {raw : InstrWord → RegSet → Prop} {s : Settings}
  {called called' : Set EntryId}

theorem sound_mono {d : Draft} (more : called ⊆ called') (sound : d.Sound (b.sources raw called)) :
    d.Sound (b.sources raw called') := by
  refine { sound with words := fun i v low at_i => ?_ }
  cases sound.words i v low at_i with
  | movable movable => exact .movable movable
  | branch branches low high made => exact .branch branches low high made
  | call calls known within made =>
    obtain ⟨id, isCalled, rest⟩ := known
    exact .call calls ⟨id, more isCalled, rest⟩ within made
  | callReg reg calls within => exact .callReg reg calls within
  | placeholder p => exact .placeholder p

/-- The body that is copied is still that of the older word. -/
theorem Copyable.movable (copyable : b.Copyable raw) (start : b.Follows b) (follows : b.Follows c)
    {id : Nat} (older : id < b.dictionary.size) {callee : Entry}
    (found : c.dictionary.get? id = some callee) (kind : callee.kind = .compiled code)
    (inlinable : code.inlineRefusal? callee.flags.throws = none) :
    ∀ v ∈ (c.heap.words code.layout.body code.layout.epilogue).toList,
      Movable raw callee.clobbers v := by
  obtain ⟨e, found0, same⟩ := start.older follows older found
  rw [same] at kind inlinable ⊢
  intro v member
  obtain ⟨n, at_n⟩ := List.mem_iff_getElem?.1 member
  rw [Array.getElem?_toList, CodeHeap.words, Array.getElem?_extract] at at_n
  split at at_n
  · obtain ⟨v', at_i, movable⟩ := copyable id e code found0 kind inlinable (code.layout.body + n)
      (Nat.le_add_right _ _) (by omega)
    have below : code.layout.body + n < b.heap.here := (Array.getElem?_eq_some_iff.1 at_i).1
    have kept := follows.heap.shares.words _ below
    rw [at_i] at kept
    obtain rfl := Option.some.inj (kept.symm.trans at_n)
    exact movable
  · cases at_n

/-- An entry that is called from a definition begun in `b` was already there. -/
theorem Opened.older (opened : b.Opened c) (isOpen : c.definition = some w) {id : Nat}
    (other : id ≠ w.entry) {callee : Entry} (found : c.dictionary.get? id = some callee) :
    id < b.dictionary.size := by
  have bound : id < c.dictionary.size := Dictionary.get?_lt found
  rw [opened.entry_eq isOpen] at other
  rw [opened.newest] at bound
  exact Nat.lt_of_le_of_ne (Nat.le_of_lt_succ bound) other

/-- Whatever an action does, the definition stays sound, with its callee among those called. -/
theorem sound_action (start : b.Follows b) (copyable : b.Copyable raw) (opened : b.Opened c)
    (isOpen : c.definition = some w) {a : Action} (fits : a.Fits c w) (obeys : a.Obeys raw)
    (sound : Draft.Sound (b.sources raw called) ⟨c.heap, w⟩) :
    Draft.Sound (b.sources raw {id | id ∈ called ∨ a.callee? w = some id})
      (stateAfter (a.emit c.settings) ⟨c.heap, w⟩) := by
  have safe : Emit.Sound (b.sources raw {id | id ∈ called ∨ a.callee? w = some id}) ⟨c.heap, w⟩
      a.emit := by
    cases a with
    | literal value => exact Emit.literal_safe value
    | setLocal name => exact Emit.setLocal_safe name
    | getLocal name => exact Emit.getLocalCalled_safe name
    | instruction v clobbers => exact .seq (Emit.instruction_safe obeys) fun _ => .pure trivial
    | primitive inputs outputs clobbers body =>
      exact Emit.primitiveBody_safe _ _ fun v member =>
        .raw (obeys v member) (RegSet.subset_refl _)
    | call id callee =>
      refine Emit.call_safe fun code kind => ?_
      obtain ⟨e, found, same⟩ :=
        start.older opened.follows (opened.older isOpen fits.1 fits.2) fits.2
      rw [same] at kind ⊢
      exact ⟨id, Or.inr rfl, e, code, found, kind, rfl, rfl⟩
    | inline id callee body =>
      obtain ⟨other, found, code, kind, inlinable, rfl⟩ := fits
      exact Emit.inlineBody_safe (copyable.movable start opened.follows
        (opened.older isOpen other found) found kind inlinable)
    | ifPart => exact Emit.ifPart_safe
    | elsePart => exact Emit.elsePart_safe
    | thenPart => exact Emit.thenPart_safe
    | exit => exact Emit.exit_safe
    | raise => exact Emit.raise_safe
    | recurse => exact Emit.recurse_safe
  exact ((safe c.settings).after ⟨sound_mono (fun _ => Or.inl) sound, .refl _⟩).1

/-- The draft of a definition that has just begun. -/
theorem sound_begun (begun : beginWord name signature b = .ok id c0)
    (isOpen : c0.definition = some w) : Draft.Sound (b.sources raw called) ⟨c0.heap, w⟩ := by
  obtain ⟨-, -, -, heap, emitted, rfl, rfl⟩ := beginWord_ok begun
  cases isOpen
  have here : heap.here = b.heap.here + prologueSlots := by
    rw [CodeHeap.emitAll_ok emitted, CodeHeap.here_stage]
    rfl
  refine ⟨rfl, here.ge, fun i v low at_i => ?_, nofun, nofun, fun some => absurd rfl some, nofun⟩
  have bound : i < heap.here := (Array.getElem?_eq_some_iff.1 at_i).1
  rw [here] at bound
  exact absurd bound (Nat.not_lt.2 low)

/-- The words of an open definition all have an origin.  If every action has succeeded, what they
call is recorded. -/
theorem Worked.sound (start : b.Follows b) (copyable : b.Copyable raw)
    (begun : beginWord name signature b = .ok id c0) (worked : Worked strict (·.Obeys raw) c0 c)
    (isOpen : c.definition = some w) :
    ∃ called : Set EntryId, Draft.Sound (b.sources raw called) ⟨c.heap, w⟩ ∧
      (strict → ∀ id ∈ called, ∀ e, c.dictionary.get? b.dictionary.size = some e →
        id ∈ e.callees) := by
  induction worked generalizing w with
  | start =>
    exact ⟨∅, sound_begun begun isOpen, fun _ _ member => absurd member (Set.notMem_empty _)⟩
  | heap _ staged _ ih =>
    obtain ⟨called, sound, recorded⟩ := ih isOpen
    exact ⟨called, sound.of_staged staged, recorded⟩
  | @act c w0 a d worked isOpen0 fits obeys done ih =>
    obtain ⟨called, sound, recorded⟩ := ih isOpen0
    have opened := worked.opened start begun
    have next := sound_action start copyable opened isOpen0 fits obeys sound
    rw [stateAfter_of_ok done] at next
    cases isOpen
    refine ⟨_, next, fun all id member e found => ?_⟩
    have entry : d.word.entry = b.dictionary.size :=
      ((worked.act isOpen0 fits obeys done).opened start begun).entry_eq rfl
    have same : a.callee? d.word = a.callee? w0 := by
      cases a with
      | recurse => exact congrArg some (entry.trans (opened.entry_eq isOpen0).symm)
      | _ => rfl
    unfold Compiler.acted Action.record at found
    rw [same, entry] at found
    cases isCallee : a.callee? w0 with
    | none =>
      rw [isCallee] at found
      rcases member with old | new
      · exact recorded all id old e found
      · cases isCallee.symm.trans new
    | some callee =>
      rw [isCallee] at found
      obtain ⟨e0, found0, -, callees⟩ := Dictionary.addCall_callees opened.follows.dictionary
        opened.newest.symm (opened.callee_le fits (opened.entry_eq isOpen0) isCallee) found
      rw [callees]
      rcases member with old | new
      · exact Or.inr (recorded all id old e0 found0)
      · exact Or.inl (Option.some.inj (new.symm.trans isCallee))
  | @failed c w0 a e d unstrict worked isOpen0 fits obeys failed ih =>
    obtain ⟨called, sound, -⟩ := ih isOpen0
    have next := sound_action start copyable (worked.opened start begun) isOpen0 fits obeys sound
    rw [stateAfter_of_error failed] at next
    cases isOpen
    exact ⟨_, next, fun all => absurd all unstrict⟩

/-- The entry of an open definition has its signature. -/
theorem Worked.signed (start : b.Follows b) (begun : beginWord name signature b = .ok id c0)
    (worked : Worked strict (·.Obeys raw) c0 c) (isOpen : c.definition = some w) :
    w.signature = signature ∧ ∀ e, c.dictionary.get? b.dictionary.size = some e →
      e.inputs = signature.inputs ∧ e.outputs = signature.outputs := by
  have drafted : ∀ {c : Compiler} {w : Definition} (a : Action), b.Opened c →
      c.definition = some w → (stateAfter (a.emit c.settings) ⟨c.heap, w⟩).word.signature =
        w.signature := by
    intro c w a opened isOpen
    have follows := opened.follows
    exact ((a.steady b.heap w c.settings).after (s := ⟨c.heap, w⟩)
      ⟨follows.heap, rfl, rfl, rfl, (follows.definition w isOpen).slots⟩).word.signature
  induction worked generalizing w with
  | start =>
    obtain ⟨-, -, -, heap, -, rfl, rfl⟩ := beginWord_ok begun
    cases isOpen
    refine ⟨rfl, fun e found => ?_⟩
    replace found : (b.dictionary.create _).get? b.dictionary.size = some e := found
    rw [Dictionary.get?_create, if_pos rfl] at found
    cases found
    exact ⟨rfl, rfl⟩
  | heap _ _ _ ih => exact ih isOpen
  | @act c w0 a d worked isOpen0 fits obeys done ih =>
    obtain ⟨same, declared⟩ := ih isOpen0
    have opened := worked.opened start begun
    have entry : d.word.entry = b.dictionary.size :=
      ((worked.act isOpen0 fits obeys done).opened start begun).entry_eq rfl
    have kept := drafted a opened isOpen0
    rw [stateAfter_of_ok done] at kept
    cases isOpen
    refine ⟨kept.trans same, fun e found => ?_⟩
    unfold Compiler.acted Action.record at found
    rw [entry] at found
    cases isCallee : a.callee? d.word with
    | none =>
      rw [isCallee] at found
      exact declared e found
    | some callee =>
      rw [isCallee] at found
      obtain ⟨e0, found0, core, -⟩ := Dictionary.addCall_callees opened.follows.dictionary
        opened.newest.symm (opened.callee_le fits entry isCallee) found
      obtain ⟨inputs, outputs⟩ := declared e0 found0
      exact ⟨(congrArg Entry.inputs core :).trans inputs,
        (congrArg Entry.outputs core :).trans outputs⟩
  | @failed c w0 a e d _ worked isOpen0 _ _ failed ih =>
    obtain ⟨same, declared⟩ := ih isOpen0
    have kept := drafted a (worked.opened start begun) isOpen0
    rw [stateAfter_of_error failed] at kept
    cases isOpen
    exact ⟨kept.trans same, declared⟩

/-- No word takes or leaves more than eight values. -/
theorem Built.bounded {l : Records} (built : Built strict raw l c) : ∀ id e,
    c.dictionary.get? id = some e → e.inputs ≤ maxValues ∧ e.outputs ≤ maxValues := by
  have older : ∀ {b c : Compiler}, b.Follows b → b.Follows c → (∀ id e,
      b.dictionary.get? id = some e → e.inputs ≤ maxValues ∧ e.outputs ≤ maxValues) →
      ∀ {id : Nat} {e}, id < b.dictionary.size → c.dictionary.get? id = some e →
        e.inputs ≤ maxValues ∧ e.outputs ≤ maxValues := by
    intro b c start follows bounded id e old found
    obtain ⟨e0, found0, same⟩ := start.older follows old found
    rw [same]
    exact bounded id e0 found0
  induction built with
  | start started =>
    intro id e found
    cases found
  | @enter l c e built callers callees hidden other few few' ih =>
    intro id f found
    have idle := built.idle
    by_cases old : (id : Nat) < c.dictionary.size
    · exact older idle.follows (idle.follows.entered idle.definition callers callees hidden) ih old
        found
    · obtain ⟨-, inputs, outputs⟩ := entered_new found (Nat.le_of_not_lt old)
      exact ⟨inputs ▸ few, outputs ▸ few'⟩
  | @define l b c0 c c' w name signature id id' built begun worked isOpen finished ih =>
    intro id e found
    have start := built.idle.follows
    have opened := worked.opened start begun
    have follows := opened.follows.finishWord isOpen
    rw [stateAfter_of_ok finished] at follows
    obtain ⟨p, laid, d, code, e0, e', ended⟩ := finishWord_ended opened isOpen finished
    by_cases old : (id : Nat) < b.dictionary.size
    · exact older start follows ih old found
    · have bound : (id : Nat) < c'.dictionary.size := Dictionary.get?_lt found
      rw [ended.size] at bound
      obtain rfl : id = b.dictionary.size :=
        Nat.le_antisymm (Nat.le_of_lt_succ bound) (Nat.le_of_not_lt old)
      obtain rfl := Option.some.inj (ended.after.symm.trans found)
      obtain ⟨inputs, outputs⟩ := (worked.signed start begun isOpen).2 e0 ended.before
      rw [ended.inputs, ended.outputs, inputs, outputs]
      obtain ⟨-, few, few', -⟩ := beginWord_ok begun
      exact ⟨few, few'⟩
  | @again l l' b c built follows definition dictionary staged frame records ih =>
    rw [dictionary]
    exact ih

/-! ## What holds of every compiled word -/

/-- `P` holds of every compiled word of `c`. -/
def Words (P : List PendingPatch → Entry → CompiledWord → Prop) (l : Records) (c : Compiler) :
    Prop :=
  ∀ id e code, c.dictionary.get? id = some e → e.kind = .compiled code → P (l id) e code

/-- A property that words have when they are finished under the settings `s`, and that they keep. -/
structure WordInvariant (strict : Prop) (raw : InstrWord → RegSet → Prop) (s : Settings)
    (P : Compiler → List PendingPatch → Entry → CompiledWord → Prop) : Prop where
  stable : ∀ {b c : Compiler} {patches : List PendingPatch} {e : Entry} {code : CompiledWord},
    b.Follows b → b.Follows c → P b patches e code → ∀ callers, P c patches { e with callers } code
  new : ∀ {l : Records} {b c0 c c' : Compiler} {w : Definition} {name : String}
    {signature : Signature} {id id' : EntryId} {p : LayoutParts} {laid : Laid} {d : Draft}
    {code : CompiledWord} {e e' : Entry}, Built strict raw l b → b.settings = s → b.Words (P b) l →
    beginWord name signature b = .ok id c0 → Worked strict (·.Obeys raw) c0 c →
    c.definition = some w →
    finishWord w c = .ok id' c' → b.Follows c' → Ended b c w c' p laid d code e e' →
    P c' w.patches e' code

theorem WordInvariant.of_follows {P : Compiler → List PendingPatch → Entry → CompiledWord → Prop}
    (inv : WordInvariant strict raw s P) {l l' : Records} (words : b.Words (P b) l)
    (start : b.Follows b) (follows : b.Follows c)
    (records : ∀ id : Nat, id < b.dictionary.size → l' id = l id)
    (new : ∀ (id : Nat) e code, b.dictionary.size ≤ id → c.dictionary.get? id = some e →
      e.kind = .compiled code → P c (l' id) e code) : c.Words (P c) l' := by
  intro id e code found kind
  by_cases older : (id : Nat) < b.dictionary.size
  · obtain ⟨e0, found0, same⟩ := start.older follows older found
    rw [same] at kind ⊢
    rw [records id older]
    exact inv.stable start follows (words id e0 code found0 kind) _
  · exact new id e code (Nat.le_of_not_lt older) found kind

theorem WordInvariant.words {P : Compiler → List PendingPatch → Entry → CompiledWord → Prop}
    (inv : WordInvariant strict raw s P) {l : Records} (built : Built strict raw l c)
    (settings : c.settings = s) : c.Words (P c) l := by
  induction built with
  | start started =>
    intro id e code found
    cases found
  | @enter l c e built callers callees hidden other _ _ ih =>
    have idle := built.idle
    apply inv.of_follows (ih settings) idle.follows
      (idle.follows.entered idle.definition callers callees hidden) (fun _ _ => rfl)
    intro id f code new found kind
    exact absurd ((entered_new found new).1.symm.trans kind) (other code)
  | @define l b c0 c c' w name signature id id' built begun worked isOpen finished ih =>
    have start := built.idle.follows
    have opened := worked.opened start begun
    have follows := opened.follows.finishWord isOpen
    rw [stateAfter_of_ok finished] at follows
    obtain ⟨p, laid, d, code, e, e', ended⟩ := finishWord_ended opened isOpen finished
    have frame :=
      (sameFrame_session b).finishWord (worked.sameFrame (sameFrame_of_begun begun)) isOpen
    rw [stateAfter_of_ok finished] at frame
    have same : b.settings = s := frame.1.symm.trans settings
    apply inv.of_follows (ih same) start follows
    · intro id older
      rw [ended.entry]
      exact Function.update_of_ne (Nat.ne_of_lt older) _ _
    · intro id f code' new found kind
      have bound : id < c'.dictionary.size := Dictionary.get?_lt found
      rw [ended.size] at bound
      obtain rfl : id = b.dictionary.size := Nat.le_antisymm (Nat.le_of_lt_succ bound) new
      obtain rfl := Option.some.inj (ended.after.symm.trans found)
      obtain rfl := EntryKind.compiled.inj (ended.kind.symm.trans kind)
      rw [ended.entry, Function.update_self]
      exact inv.new built same (ih same) begun worked isOpen finished follows ended
  | @again l l' b c built follows definition dictionary staged frame records ih =>
    apply inv.of_follows (ih (frame.1.symm.trans settings)) built.idle.follows follows records
    intro id e code new found
    rw [dictionary] at found
    exact absurd (Dictionary.get?_lt found) (Nat.not_lt.2 new)

end Compiler

end ForthJit
