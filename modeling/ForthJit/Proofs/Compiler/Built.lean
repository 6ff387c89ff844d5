import ForthJit.Proofs.Compiler.Drafts
import ForthJit.Proofs.Compiler.Origin

/-!
# Runs, and what they amount to

In a `Run` snapshots are taken between definitions and restored only while they are current.
Whatever such a run does, a compiler without an open definition looks as if words had been entered
one after the other: it is `Built`.  Each of its compiled words has been begun in a compiler that
was built itself, worked on and finished.  What all finished words have in common is proved by
induction over that.
-/

namespace ForthJit

/-- What was pending in each definition when it ended. -/
abbrev Records := EntryId → List PendingPatch

theorem CodeHeap.bindSlot_staged (target : Nat) (h : CodeHeap) :
    (stateAfter (bindSlot target) h).staged = h.staged := by
  unfold bindSlot stateAfter
  rw [bind_get]
  cases Region.reserve .addressTable 8 8 h.table <;> rfl

/-- A heap that still has everything has the same words if it has as many. -/
theorem CodeHeap.Follows.staged_eq {b h : CodeHeap} (follows : b.Follows h)
    (here : h.here = b.here) : h.staged = b.staged := by
  refine Array.ext_getElem? fun i => ?_
  by_cases low : i < b.here
  · exact follows.shares.words i low
  · rw [Array.getElem?_eq_none (Nat.le_of_not_lt low),
      Array.getElem?_eq_none (show h.here ≤ i by omega)]

namespace Compiler

variable {strict : Prop} {raw : InstrWord → RegSet → Prop} {b c c' : Compiler} {l l' : Records}

/-! ## Settings and entry code -/

/-- The settings and the entry code are those of `b`. -/
def SameFrame (b c : Compiler) : Prop := c.settings = b.settings ∧ c.thunk = b.thunk

theorem SameFrame.refl (c : Compiler) : SameFrame c c := ⟨rfl, rfl⟩

variable {c0 : Compiler}

theorem Worked.sameFrame {may : Action → Prop} (worked : Worked strict may c0 c)
    (start : SameFrame b c0) : SameFrame b c :=
  worked.keeps ⟨⟨fun same _ => same, fun same _ _ => same⟩, fun same _ _ => same⟩ start

theorem sameFrame_session (b : Compiler) : SessionInvariant (fun _ => True) (SameFrame b) where
  heap := fun same _ => same
  draft := fun same _ _ => same
  ended := fun _ _ _ same => same
  restore := fun _ _ same => same
  plain := fun _ _ => trivial
  worked := fun same worked => worked.sameFrame same
  begun := fun same _ _ => same
  unbegun := fun same _ => same
  entered := fun same _ _ _ _ _ => same
  back := fun _ _ same => same

theorem sameFrame_of_begun {name : String} {signature : Signature} {id : EntryId}
    (begun : beginWord name signature b = .ok id c0) : SameFrame b c0 :=
  (Runs.of_ok ((sameFrame_session b).beginWord name signature) (SameFrame.refl b) begun).1

/-! ## Compilers built word by word -/

/-- A new heap with the published entry code at `thunk`. -/
def Started (s : Settings) (heap : CodeHeap) (thunk : Nat) : Prop :=
  ∃ (host host' : Host) (empty : CodeHeap), CodeHeap.create host s.layout = .ok empty ∧
    startHeap s (empty.logging [] host') = .ok thunk heap

/-- A heap with entry code is a new one after operations that only add to it. -/
theorem Started.grown {s : Settings} {heap : CodeHeap} {thunk : Nat}
    (started : Started s heap thunk) : ∃ (host : Host) (empty : CodeHeap),
      CodeHeap.create host s.layout = .ok empty ∧ empty.Extends heap ∧ heap.Consistent := by
  obtain ⟨host, host', empty, created, start⟩ := started
  have mapped : CodeHeap.Grows 0 empty (empty.logging [] host') := .of_memory empty rfl
  have grown := (startHeap_leaves s (n := 0)).of_ok start
  obtain ⟨extended, consistent, -⟩ :=
    mapped.trans grown (CodeHeap.create_consistent created) (Nat.zero_le _)
  exact ⟨host, empty, created, extended, consistent⟩

/-- A compiler without an open definition, in which one word after the other was entered.  What was
pending in each compiled word when it ended is in the records. -/
inductive Built (strict : Prop) (raw : InstrWord → RegSet → Prop) : Records → Compiler → Prop
  | start {s : Settings} {heap : CodeHeap} {stackCells thunk : Nat} {l : Records} :
      Started s heap thunk → Built strict raw l (wordless s heap stackCells thunk)
  | enter {l : Records} {c : Compiler} {e : Entry} : Built strict raw l c → e.callers = [] →
      e.callees = [] → e.visible = false → (∀ code, e.kind ≠ .compiled code) →
      e.inputs ≤ maxValues → e.outputs ≤ maxValues → Built strict raw l (c.entered e)
  | define {l : Records} {b c0 c c' : Compiler} {w : Definition} {name : String}
      {signature : Signature} {id id' : EntryId} : Built strict raw l b →
      beginWord name signature b = .ok id c0 → Worked strict (·.Obeys raw) c0 c →
      c.definition = some w →
      finishWord w c = .ok id' c' → Built strict raw (Function.update l w.entry w.patches) c'
  | again {l l' : Records} {b c : Compiler} : Built strict raw l b → b.Follows c →
      c.definition = none → c.dictionary = b.dictionary → c.heap.staged = b.heap.staged →
      SameFrame b c → (∀ id : Nat, id < b.dictionary.size → l' id = l id) → Built strict raw l' c

theorem Started.consistent {s : Settings} {heap : CodeHeap} {thunk : Nat}
    (started : Started s heap thunk) : heap.Consistent := by
  obtain ⟨host, empty, -, -, consistent⟩ := started.grown
  exact consistent

/-- Since the definition was begun in `b`, only work on it was done. -/
theorem Worked.opened {may : Action → Prop} {name : String} {signature : Signature} {id : EntryId}
    (start : b.Follows b) (begun : beginWord name signature b = .ok id c0)
    (worked : Worked strict may c0 c) : b.Opened c :=
  worked.keeps (opened_invariant b) (opened_of_begun start begun)

theorem Built.idle (built : Built strict raw l c) : c.Idle := by
  induction built with
  | start started =>
    refine ⟨rfl, .refl started.consistent Dictionary.wellFormed_empty rfl, ?_⟩
    intro id e code found
    cases found
  | enter _ callers callees hidden other _ _ ih => exact ih.entered callers callees hidden other
  | define _ begun worked isOpen finished ih =>
    have opened := worked.opened ih.follows begun
    have follows := opened.follows.finishWord isOpen
    rw [stateAfter_of_ok finished] at follows
    obtain ⟨definition, new⟩ := finishWord_clean opened isOpen finished
    exact ih.of_follows follows definition new
  | again _ follows definition dictionary _ _ _ ih => exact ih.of_same follows definition dictionary

/-- The records matter only for words that are there. -/
theorem Built.congr (built : Built strict raw l c)
    (same : ∀ id : Nat, id < c.dictionary.size → l' id = l id) : Built strict raw l' c :=
  built.again built.idle.follows built.idle.definition rfl rfl (.refl c) same

theorem Built.restored (built : Built strict raw l b) (follows : b.Follows c)
    (restored : Restored b c) (frame : SameFrame b c)
    (same : ∀ id : Nat, id < b.dictionary.size → l' id = l id) : Built strict raw l' c :=
  built.again follows restored.definition restored.dictionary restored.staged frame same

/-! ## Runs -/

/-- A run: operations, snapshots taken between definitions, and their restoration.  A snapshot is
current until an older one is restored.  All words that are inserted as they are obey `raw`, and if
the run is `strict`, all operations on an open definition succeed.  From `start` on, `note` keeps a
log of the operations. -/
inductive RunWith (strict : Prop) (raw : InstrWord → RegSet → Prop) {L : Type} (start : L)
    (note : Compiler → L → Operation → L) : List Snapshot → L → Compiler → Prop
  | create {host : Host} {s : Settings} {c : Compiler} : create host s = .ok c →
      RunWith strict raw start note [] start c
  | step {current : List Snapshot} {l : L} {c : Compiler} (op : Operation) :
      RunWith strict raw start note current l c → op.Obeys raw →
      (strict → c.definition ≠ none → op.inBody = true → ∃ c', op.run c = .ok () c') →
      RunWith strict raw start note current (note c l op) (c.after op)
  | snapshot {current : List Snapshot} {l : L} {c : Compiler} :
      RunWith strict raw start note current l c → c.definition = none →
      RunWith strict raw start note (c.snapshot :: current) l c
  | restore {newer older : List Snapshot} {s : Snapshot} {l : L} {c : Compiler} :
      RunWith strict raw start note (newer ++ s :: older) l c →
      RunWith strict raw start note (s :: older) l (c.restore s)

/-- What an operation on `c` leaves in the records. -/
def recordsAfter (c : Compiler) (l : Records) (op : Operation) : Records :=
  match op, c.definition with
  | .endWord, some w => Function.update l w.entry w.patches
  | .definePrimitive .., none => Function.update l c.dictionary.size []
  | _, _ => l

/-- A run that keeps records. -/
abbrev Run (strict : Prop) (raw : InstrWord → RegSet → Prop) :
    List Snapshot → Records → Compiler → Prop :=
  RunWith strict raw (fun _ => []) recordsAfter

/-- `c` came after `b`, under the same settings. -/
structure Continues (b c : Compiler) : Prop where
  follows : b.Follows c
  frame : SameFrame b c

theorem Continues.refl (start : b.Follows b) : b.Continues b := ⟨start, .refl b⟩

theorem Continues.after (continues : b.Continues c) (op : Operation) : b.Continues (c.after op) :=
  ⟨continues.follows.after op, ((sameFrame_session b).run op fun _ _ => trivial).after
    continues.frame⟩

section

variable {L : Type} {start l : L} {note : Compiler → L → Operation → L}
  {At Known : L → Compiler → Prop}

/-- Runs carry `At` along, and what is `Known` between definitions lasts until it is needed
again. -/
structure Carries (strict : Prop) (raw : InstrWord → RegSet → Prop) (start : L)
    (note : Compiler → L → Operation → L) (At Known : L → Compiler → Prop) : Prop where
  made : ∀ {host s c}, create host s = .ok c → At start c
  step : ∀ {l c}, At l c → ∀ op : Operation, op.Obeys raw →
    (strict → c.definition ≠ none → op.inBody = true → ∃ c', op.run c = .ok () c') →
    At (note c l op) (c.after op)
  idle : ∀ {l c}, At l c → c.definition = none → Known l c
  follows : ∀ {l b}, Known l b → b.Follows b
  later : ∀ {l b c}, Known l b → b.Follows c → ∀ op, Known (note c l op) b
  back : ∀ {l b c}, Known l b → b.Continues c → Restored b c → At l c

/-- The compilers in which the current snapshots were taken. -/
structure Bases (Known : L → Compiler → Prop) (l : L) (c : Compiler) (bases : List Compiler) :
    Prop where
  known : ∀ b ∈ bases, Known l b ∧ b.Continues c
  nested : bases.Pairwise fun newer older => older.Follows newer

/-- Restoring a current snapshot leaves it and the older ones current. -/
theorem Bases.restore (carries : Carries strict raw start note At Known)
    {newer older : List Compiler} (held : Bases Known l c (newer ++ b :: older)) :
    Bases Known l (c.restore b.snapshot) (b :: older) := by
  have nested := (List.pairwise_append.1 held.nested).2.1
  refine ⟨fun t member => ?_, nested⟩
  obtain ⟨known, follows, frame⟩ := held.known t (List.mem_append_right _ member)
  have since : t.Follows b := by
    rcases List.mem_cons.1 member with rfl | isOlder
    · exact carries.follows known
    · exact (List.pairwise_cons.1 nested).1 t isOlder
  exact ⟨known, follows.restore since.entries.size since.heap.covered, frame⟩

theorem RunWith.carried {current : List Snapshot} (run : RunWith strict raw start note current l c)
    (carries : Carries strict raw start note At Known) :
    At l c ∧ ∃ bases, current = bases.map Compiler.snapshot ∧ Bases Known l c bases := by
  induction run with
  | create created =>
    refine ⟨carries.made created, [], rfl, fun b member => ?_, .nil⟩
    exact absurd member List.not_mem_nil
  | step op _ obeys succeeds ih =>
    obtain ⟨standing, bases, taken, held⟩ := ih
    refine ⟨carries.step standing op obeys succeeds, bases, taken, fun b member => ?_, held.nested⟩
    obtain ⟨known, continues⟩ := held.known b member
    exact ⟨carries.later known continues.follows op, continues.after op⟩
  | @snapshot current l c _ idle ih =>
    obtain ⟨standing, bases, taken, held⟩ := ih
    have known := carries.idle standing idle
    refine ⟨standing, c :: bases, by rw [taken]; rfl, fun b member => ?_, ?_⟩
    · rcases List.mem_cons.1 member with rfl | old
      · exact ⟨known, .refl (carries.follows known)⟩
      · exact held.known b old
    · exact List.pairwise_cons.2 ⟨fun b member => (held.known b member).2.follows, held.nested⟩
  | @restore newer older s l c _ ih =>
    obtain ⟨-, bases, taken, held⟩ := ih
    obtain ⟨newer', rest, rfl, rfl, split⟩ := List.map_eq_append_iff.1 taken.symm
    obtain ⟨b, older', rfl, rfl, rfl⟩ := List.map_eq_cons_iff.1 split
    obtain ⟨known, continues⟩ := held.known b (by simp)
    have kept := held.restore carries
    exact ⟨carries.back known (kept.known b (by simp)).2
      (continues.follows.restored (carries.follows known).dictionary), _, rfl, kept⟩

end

/-- Either no definition is open and the compiler is built, or the open definition was begun in one
that is built. -/
inductive Standing (strict : Prop) (raw : InstrWord → RegSet → Prop) (l : Records) :
    Compiler → Prop
  | idle {c : Compiler} : Built strict raw l c → Standing strict raw l c
  | working {b c0 c : Compiler} {name : String} {signature : Signature} {id : EntryId} :
      Built strict raw l b → beginWord name signature b = .ok id c0 →
        Worked strict (·.Obeys raw) c0 c →
      Standing strict raw l c

theorem Standing.built (standing : Standing strict raw l c) (idle : c.definition = none) :
    Built strict raw l c := by
  cases standing with
  | idle built => exact built
  | working built begun worked =>
    exact absurd idle (worked.opened built.idle.follows begun).not_idle

/-! ## Primitives leave nothing pending -/

end Compiler

namespace Emit

variable {α β : Type}

/-- Nothing becomes pending. -/
def Patchless (m : Emit α) : Prop :=
  ∀ settings, Keeps (fun d : Draft => d.word.patches = []) (m settings) fun _ => True

namespace Patchless

theorem bind {m : Emit α} {f : α → Emit β} (first : Patchless m) (second : ∀ a, Patchless (f a)) :
    Patchless (m >>= f) :=
  fun settings => Keeps.bind (first settings) fun a _ => second a settings

theorem pure (a : α) : Patchless (pure a : Emit α) := fun _ => Keeps.pure trivial

theorem onHeap (operation : HeapM α) : Patchless (onHeap operation) := by
  intro settings d none
  obtain ⟨heap, word⟩ := d
  simp only [Emit.onHeap]
  cases operation heap with
  | ok a heap' => exact ⟨none, trivial⟩
  | error e heap' => exact none

theorem clobber (regs : RegSet) : Patchless (clobber regs) := by
  have spilled : Patchless (spill regs) := by
    intro settings d none
    rw [spill_after]
    split
    · next ok =>
      split at ok
      · cases ok
        exact ⟨none, trivial⟩
      · cases ok
    · next error =>
      split at error
      · cases error
      · cases error
        exact none
  exact bind spilled fun _ _ => Keeps.modify (fun _ none => none) trivial

theorem assembled (result : Except EncodeError α) : Patchless (assembled result) := by
  cases result with
  | ok a => exact pure a
  | error e => exact fun _ => Keeps.throw _

theorem transfer {f : Nat → Emit PUnit} (each : ∀ n, Patchless (f n)) (counts : List Nat) :
    Patchless (do
      match ← convention with
      | .register => return
      | .stack => counts.forM f) := by
  have all : Patchless (counts.forM f) := by
    induction counts with
    | nil => exact pure _
    | cons n counts ih => exact bind (each n) fun _ => ih
  refine bind (fun _ => Keeps.pure trivial) fun c => ?_
  cases c with
  | register => exact pure _
  | stack => exact all

theorem primitiveBody (inputs outputs : Nat) (clobbers : RegSet) (body : List InstrWord) :
    Patchless (primitiveBody inputs outputs clobbers body) :=
  bind (transfer (fun _ => bind (clobber _) fun _ => bind (assembled _) fun _ =>
      bind (onHeap _) fun _ => pure _) _) fun _ =>
    bind (clobber _) fun _ => bind (onHeap _) fun _ =>
      bind (transfer (fun _ => bind (assembled _) fun _ => bind (onHeap _) fun _ => pure _) _)
        fun _ _ => Keeps.modify (fun _ none => none) trivial

end Patchless

end Emit

namespace Compiler

variable {strict : Prop} {raw : InstrWord → RegSet → Prop} {b c c0 c' : Compiler} {l l' : Records}
  {name : String} {signature : Signature} {id : EntryId}

/-! ## Every run builds -/

theorem Built.of_heap (built : Built strict raw l c) (follows : c.Follows c')
    (definition : c'.definition = none) (dictionary : c'.dictionary = c.dictionary)
    (staged : c'.heap.staged = c.heap.staged) (frame : SameFrame c c') : Built strict raw l c' :=
  built.again follows definition dictionary staged frame fun _ _ => rfl

/-- A definition that could not begin leaves nothing. -/
theorem Built.of_beginWord_error (built : Built strict raw l c) {e : CompileError}
    (failed : beginWord name signature c = .error e c') : Built strict raw l c' := by
  have idle := built.idle
  have follows := Runs.of_error (beginWord_keeps (b := c) name signature) idle.follows failed
  have frame :=
    Runs.of_error ((sameFrame_session c).beginWord name signature) (SameFrame.refl c) failed
  rcases beginWord_error failed with rfl | ⟨e, heap, full, rfl⟩
  · exact built
  · refine built.of_heap follows idle.definition rfl (follows.heap.staged_eq ?_) frame
    have grown := idle.follows.heap.of_grows ((CodeHeap.emitAll_leaves reserved).of_error full)
    have longer : c.heap.here ≤ heap.here := grown.shares.here
    show (heap.staged.shrink c.heap.here).size = c.heap.here
    rw [Array.size_shrink]
    exact Nat.min_eq_left longer

variable {w : Definition} {current : List Snapshot}

/-- The definition that is open in `c` is the newest entry. -/
theorem Opened.entry_eq (opened : b.Opened c) (isOpen : c.definition = some w) :
    w.entry = b.dictionary.size :=
  Nat.add_right_cancel ((opened.follows.definition w isOpen).newest.symm.trans opened.newest)

/-- What an open definition calls is an older entry, or itself. -/
theorem Opened.callee_le (opened : b.Opened c) {a : Action} {w' : Definition} (fits : a.Fits c w)
    (entry : w'.entry = b.dictionary.size) {callee : Nat} (called : a.callee? w' = some callee) :
    callee ≤ b.dictionary.size := by
  rcases fits.callee_known called with bound | own
  · exact Nat.le_of_lt_succ (Nat.lt_of_lt_of_eq bound opened.newest)
  · exact Nat.le_of_eq (own.trans entry)

/-- A definition that was begun in `b` and taken back leaves nothing. -/
theorem Built.takenBack (built : Built strict raw l b) (frame : SameFrame b c)
    (follows : b.Follows c) (restored : Restored b c) (patches : List PendingPatch) :
    Built strict raw (Function.update l b.dictionary.size patches) c :=
  built.restored follows restored frame fun _ older =>
    Function.update_of_ne (Nat.ne_of_lt older) _ _

/-- Ending a definition adds a word, or leaves nothing. -/
theorem Built.of_endWord (built : Built strict raw l b)
    (begun : beginWord name signature b = .ok id c0) (worked : Worked strict (·.Obeys raw) c0 c)
    (isOpen : c.definition = some w) :
    Built strict raw (Function.update l w.entry w.patches) (stateAfter endWord c) := by
  have idle := built.idle
  have opened := worked.opened idle.follows begun
  cases outcome : endWord c with
  | ok id' c' =>
    rw [stateAfter_of_ok outcome]
    exact built.define begun worked isOpen (endWord_finished isOpen outcome)
  | error e c' =>
    rw [stateAfter_of_error outcome, opened.entry_eq isOpen]
    have frame := worked.sameFrame (sameFrame_of_begun begun)
    exact built.takenBack (Runs.of_error (sameFrame_session b).endWord frame outcome)
      (Runs.of_error endWord_keeps opened.follows outcome)
      (opened.failed idle.follows.dictionary outcome) _

theorem Built.of_abandonWord (built : Built strict raw l b) (opened : b.Opened c)
    (frame : SameFrame b c) : Built strict raw l c.abandonWord :=
  built.restored opened.follows.abandonWord (opened.abandoned built.idle.follows.dictionary)
    ((sameFrame_session b).abandonWord frame) fun _ _ => rfl

theorem definePrimitive_cases (name : String) (inputs outputs : Nat) (clobbers : RegSet)
    (body : List InstrWord) (c : Compiler) :
    let signature : Signature := { inputs, outputs, quiet := true }
    (∃ e c', beginWord name signature c = .error e c' ∧
        definePrimitive name inputs outputs clobbers body c = .error e c') ∨
      ∃ id c0, beginWord name signature c = .ok id c0 ∧
        ((∃ e c1, emitting (Emit.primitiveBody inputs outputs clobbers body) c0 = .error e c1 ∧
            definePrimitive name inputs outputs clobbers body c = .error e c1.abandonWord) ∨
          ∃ c1, emitting (Emit.primitiveBody inputs outputs clobbers body) c0 = .ok () c1 ∧
            definePrimitive name inputs outputs clobbers body c = endWord c1) := by
  intro signature
  unfold definePrimitive
  cases begun : beginWord name signature c with
  | error e c' => exact Or.inl ⟨e, c', rfl, bind_of_error begun _⟩
  | ok id c0 =>
    refine Or.inr ⟨id, c0, rfl, ?_⟩
    rw [bind_of_ok begun]
    have tried := tryCatch_eq (emitting (Emit.primitiveBody inputs outputs clobbers body))
      (fun e => do
        modify abandonWord
        throw e) c0
    cases outcome : emitting (Emit.primitiveBody inputs outputs clobbers body) c0 with
    | error e c1 =>
      rw [outcome] at tried
      exact Or.inl ⟨e, c1, rfl, bind_of_error tried _⟩
    | ok _ c1 =>
      rw [outcome] at tried
      exact Or.inr ⟨c1, rfl, bind_of_ok tried _⟩

/-- A primitive is a word of one action. -/
theorem Built.of_definePrimitive (built : Built strict raw l c) {inputs outputs : Nat}
    {clobbers : RegSet} {body : List InstrWord} (obeys : ∀ v ∈ body, raw v clobbers) :
    Built strict raw (Function.update l c.dictionary.size [])
      (stateAfter (definePrimitive name inputs outputs clobbers body) c) := by
  have idle := built.idle
  have other : ∀ {c'}, Built strict raw l c' → c'.dictionary = c.dictionary →
      Built strict raw (Function.update l c.dictionary.size []) c' := fun built' same =>
    built'.congr fun id older => Function.update_of_ne (Nat.ne_of_lt (same ▸ older)) _ _
  rcases definePrimitive_cases name inputs outputs clobbers body c with ⟨e, c', failed, same⟩ |
    ⟨id, c0, begun, ⟨e, c1, failed, same⟩ | ⟨c1, emitted, same⟩⟩
  · rw [stateAfter_of_error same]
    refine other (built.of_beginWord_error failed) ?_
    rcases beginWord_error failed with rfl | ⟨e, heap, -, rfl⟩ <;> rfl
  · rw [stateAfter_of_error same]
    have opened := Runs.of_error (emitting_keeps (opened_invariant c).toDraftInvariant fun _ _ =>
      Emit.primitiveBody_confined _ _ _ _) (opened_of_begun idle.follows begun) failed
    have frame := Runs.of_error (emitting_keeps (sameFrame_session c).toDraftInvariant fun _ _ =>
      Emit.primitiveBody_confined _ _ _ _) (sameFrame_of_begun begun) failed
    exact other (built.of_abandonWord opened frame)
      (opened.abandoned idle.follows.dictionary).dictionary
  · unfold stateAfter
    rw [same]
    obtain ⟨w, d, isOpen, done, rfl⟩ := emitting_ok emitted
    have first : w.patches = [] ∧ w.depth = inputs ∧ inputs ≤ maxValues ∧ outputs ≤ maxValues := by
      obtain ⟨-, few, few', heap, -, rfl, rfl⟩ := beginWord_ok begun
      cases isOpen
      exact ⟨rfl, rfl, few, few'⟩
    have worked :
        Worked strict (·.Obeys raw) c0 (c0.acted (.primitive inputs outputs clobbers body) d) :=
      Worked.start.act isOpen first.2 obeys done
    have nothing : d.word.patches = [] :=
      (Runs.of_ok (Emit.Patchless.primitiveBody _ _ _ _ _) first.1 done).1
    have ended := built.of_endWord begun worked (w := d.word) rfl
    rw [(worked.opened idle.follows begun).entry_eq rfl, nothing] at ended
    exact ended

theorem Built.of_bindExternal (built : Built strict raw l c) (inputs outputs address : Nat) :
    Built strict raw l (stateAfter (bindExternal name inputs outputs address) c) := by
  have idle := built.idle
  have grown : ∀ {heap}, (∀ n, CodeHeap.Grows n c.heap heap) → heap.staged = c.heap.staged →
      Built strict raw l { c with heap } := fun grows staged =>
    built.of_heap (idle.follows.withHeap (idle.follows.heap.of_grows (grows _))) idle.definition rfl
      staged (.refl c)
  rcases bindExternal_cases name inputs outputs address c with ⟨e, refused⟩ |
    ⟨-, few, few', ⟨e, heap, full, refused⟩ | ⟨slot, heap, reserved, bound⟩⟩
  · rw [stateAfter_of_error refused]
    exact built
  · rw [stateAfter_of_error refused]
    have staged := CodeHeap.bindSlot_staged address c.heap
    rw [stateAfter_of_error full] at staged
    exact grown (fun n => (CodeHeap.bindSlot_leaves address).of_error full) staged
  · rw [stateAfter_of_ok bound]
    have staged := CodeHeap.bindSlot_staged address c.heap
    rw [stateAfter_of_ok reserved] at staged
    exact (grown (fun n => (CodeHeap.bindSlot_leaves address).of_ok reserved) staged).enter
      rfl rfl rfl nofun few few'

/-- Operations that neither begin a definition nor are one add no compiled word. -/
theorem Built.closed (built : Built strict raw l c) {op : Operation} (obeys : op.Obeys raw)
    (opens : op.opensWord = false) :
    Built strict raw l (c.after op) ∧ ∀ (id : Nat) e code, c.dictionary.size ≤ id →
      (c.after op).dictionary.get? id = some e → e.kind ≠ .compiled code := by
  have idle := built.idle
  have same : ∀ {c' : Compiler}, c'.dictionary = c.dictionary → ∀ (id : Nat) e code,
      c.dictionary.size ≤ id → c'.dictionary.get? id = some e → e.kind ≠ .compiled code := by
    intro c' dictionary id e code new found
    rw [dictionary] at found
    exact absurd (Dictionary.get?_lt found) (Nat.not_lt.2 new)
  have external : ∀ name inputs outputs address,
      let c' := stateAfter (bindExternal name inputs outputs address) c
      Built strict raw l c' ∧ ∀ (id : Nat) e code, c.dictionary.size ≤ id →
        c'.dictionary.get? id = some e → e.kind ≠ .compiled code := by
    intro name inputs outputs address
    refine ⟨built.of_bindExternal inputs outputs address, ?_⟩
    rcases bindExternal_cases name inputs outputs address c with ⟨e, refused⟩ |
      ⟨-, -, -, ⟨e, heap, -, refused⟩ | ⟨slot, heap, -, bound⟩⟩
    · rw [stateAfter_of_error refused]
      exact same rfl
    · rw [stateAfter_of_error refused]
      exact same rfl
    · rw [stateAfter_of_ok bound]
      intro id e code new found kind
      cases (entered_new found new).1.symm.trans kind
  cases inBody : op.inBody with
  | true =>
    have worked : Worked False (·.Obeys raw) c (c.after op) :=
      (Does.operation inBody obeys).worked .start False.elim
    obtain ⟨definition, dictionary, staged⟩ := worked.idle idle.definition
    exact ⟨built.of_heap (idle.follows.after op) definition dictionary staged
      (worked.sameFrame (.refl c)), same dictionary⟩
  | false =>
    cases op with
    | beginWord | definePrimitive => cases opens
    | endWord =>
      rw [Compiler.after, Operation.run, stateAfter_ignore,
        stateAfter_of_error (endWord_none idle.definition)]
      exact ⟨built, same rfl⟩
    | abandonWord =>
      have unchanged : c.after .abandonWord = c := by
        show c.abandonWord = c
        rw [abandonWord, idle.definition]
      rw [unchanged]
      exact ⟨built, same rfl⟩
    | bindExternal name inputs outputs address =>
      rw [Compiler.after, Operation.run, stateAfter_ignore]
      exact external name inputs outputs address
    | resolveExternal name inputs outputs =>
      rw [Compiler.after, Operation.run, stateAfter_ignore]
      rcases resolveExternal_cases name inputs outputs c with unresolved | ⟨address, found⟩
      · rw [stateAfter_of_error unresolved]
        exact ⟨built, same rfl⟩
      · rw [stateAfter_congr found]
        exact external name inputs outputs address
    | invoke id args =>
      rw [Compiler.after, Operation.run, stateAfter_ignore]
      have restored : Restored c (stateAfter (invoke id args) c) :=
        .of_invoke idle.follows idle.definition id args
      exact ⟨built.restored (((follows_session c).invoke id args).after idle.follows) restored
        (((sameFrame_session c).invoke id args).after (.refl c)) fun _ _ => rfl,
        same restored.dictionary⟩
    | _ => cases inBody

/-- Between definitions, every operation leaves a compiler that stands. -/
theorem Built.after (built : Built strict raw l c) (op : Operation) (obeys : op.Obeys raw) :
    Standing strict raw (c.recordsAfter l op) (c.after op) := by
  cases opens : op.opensWord with
  | true =>
    cases op with
    | beginWord name signature =>
      rw [Compiler.after, Operation.run, stateAfter_ignore]
      cases outcome : beginWord name signature c with
      | ok id c' =>
        rw [stateAfter_of_ok outcome]
        exact .working built outcome .start
      | error e c' =>
        rw [stateAfter_of_error outcome]
        exact .idle (built.of_beginWord_error outcome)
    | definePrimitive name inputs outputs clobbers body =>
      rw [Compiler.after, Operation.run, stateAfter_ignore]
      unfold recordsAfter
      rw [built.idle.definition]
      exact .idle (built.of_definePrimitive obeys)
    | _ => cases opens
  | false =>
    have records : c.recordsAfter l op = l := by
      unfold recordsAfter
      rw [built.idle.definition]
      cases op <;> first | rfl | cases opens
    rw [records]
    exact .idle (built.closed obeys opens).1

/-- While a definition is open, every operation leaves a compiler that stands. -/
theorem Worked.after (built : Built strict raw l b)
    (begun : beginWord name signature b = .ok id c0) (worked : Worked strict (·.Obeys raw) c0 c)
    (op : Operation) (obeys : op.Obeys raw)
    (succeeds : strict → c.definition ≠ none → op.inBody = true → ∃ c', op.run c = .ok () c') :
    Standing strict raw (c.recordsAfter l op) (c.after op) := by
  have opened := worked.opened built.idle.follows begun
  obtain ⟨w, isOpen, -⟩ := opened.isOpen
  have frame := worked.sameFrame (sameFrame_of_begun begun)
  cases inBody : op.inBody with
  | true =>
    have records : c.recordsAfter l op = l := by
      cases op <;> first | rfl | cases inBody
    rw [records]
    exact .working built begun ((Does.operation inBody obeys).worked worked fun all =>
      ⟨(), succeeds all opened.not_idle inBody⟩)
  | false =>
    by_cases ended : op = .endWord
    · subst ended
      rw [Compiler.after, Operation.run, stateAfter_ignore]
      unfold recordsAfter
      rw [isOpen]
      exact .idle (built.of_endWord begun worked isOpen)
    by_cases abandoned : op = .abandonWord
    · subst abandoned
      exact .idle (built.of_abandonWord opened frame)
    · have records : c.recordsAfter l op = l := by
        unfold recordsAfter
        rw [isOpen]
        cases op <;> first | rfl | exact absurd rfl ended
      obtain ⟨e, refused⟩ := refused_of_open opened.not_idle inBody ended abandoned
      rw [records, Compiler.after, stateAfter_of_error refused]
      exact .working built begun worked

/-- What a new compiler is made of obeys `raw`. -/
def BuiltInObeys (raw : InstrWord → RegSet → Prop) : Prop :=
  ∀ p ∈ Primitive.all, ∀ i ∈ p.body, raw i.encode p.clobbers

theorem BuiltInObeys.words (obeys : BuiltInObeys raw) {p : Primitive} (member : p ∈ Primitive.all) :
    ∀ v ∈ p.body.map Instruction.encode, raw v p.clobbers :=
  List.forall_mem_map.2 (obeys p member)

theorem Built.of_create (obeys : BuiltInObeys raw) {host : Host} {s : Settings}
    (created : create host s = .ok c) : Built strict raw (fun _ => []) c := by
  obtain ⟨heap, host', stackCells, thunk, heap', made, started, defined⟩ := create_cases created
  have start : Built strict raw (fun _ => []) (wordless s heap' stackCells thunk) :=
    .start ⟨host, host', heap, made, started⟩
  have builds : Keeps (Built strict raw fun _ => []) builtIn fun _ => True := by
    have few : ∀ i ∈ Intrinsic.all, i.inputs ≤ maxValues ∧ i.outputs ≤ maxValues := by decide
    refine seq (keeps_forM fun i member => ?_) fun _ => keeps_forM fun p member => ?_
    · exact fun c built =>
        ⟨built.enter rfl rfl rfl nofun (few i member).1 (few i member).2, trivial⟩
    · refine ignore_keeps (.of_after fun c built => ?_)
      have defined : Built strict raw (Function.update (fun _ => []) c.dictionary.size [])
          (stateAfter (definePrimitive p.name p.inputs p.outputs p.clobbers
            (p.body.map Instruction.encode)) c) := built.of_definePrimitive (obeys.words member)
      rwa [Function.update_eq_self] at defined
  exact (Runs.of_ok builds start defined).1

theorem recordsAfter_below (follows : b.Follows c) (l : Records) (op : Operation) {id : Nat}
    (older : id < b.dictionary.size) : c.recordsAfter l op id = l id := by
  cases op with
  | endWord =>
    unfold recordsAfter
    cases isOpen : c.definition with
    | none => rfl
    | some w =>
      have entry : b.dictionary.size ≤ w.entry := (follows.definition w isOpen).entry
      exact Function.update_of_ne (Nat.ne_of_lt (Nat.lt_of_lt_of_le older entry)) _ _
  | definePrimitive name inputs outputs clobbers body =>
    unfold recordsAfter
    cases c.definition with
    | none =>
      exact Function.update_of_ne (Nat.ne_of_lt (Nat.lt_of_lt_of_le older follows.entries.size)) _ _
    | some w => rfl
  | _ => rfl

theorem Run.standing (obeys : BuiltInObeys raw) (run : Run strict raw current l c) :
    Standing strict raw l c := by
  have carries : Carries strict raw (fun _ => []) recordsAfter (Standing strict raw)
      (Built strict raw) := by
    refine ⟨fun created => .idle (.of_create obeys created), fun standing op obeyed succeeds => ?_,
      Standing.built, fun built => built.idle.follows, fun built follows op => built.congr
        fun _ older => recordsAfter_below follows _ op older, fun built continues restored =>
          .idle (built.restored continues.follows restored continues.frame fun _ _ => rfl)⟩
    cases standing with
    | idle built => exact built.after op obeyed
    | working built begun worked => exact worked.after built begun op obeyed succeeds
  exact (run.carried carries).1

/-- A run leaves a compiler that is built whenever no definition is open. -/
theorem Run.built (obeys : BuiltInObeys raw) (run : Run strict raw current l c)
    (idle : c.definition = none) : Built strict raw l c :=
  (run.standing obeys).built idle

/-! ## Runs that are given by their operations -/

/-- The log and the compiler after operations. -/
def playedWith {L : Type} (note : Compiler → L → Operation → L) (ops : List Operation) (l : L)
    (c : Compiler) : L × Compiler :=
  ops.foldl (fun (l, c) op => (note c l op, c.after op)) (l, c)

/-- The records and the compiler after operations. -/
abbrev played := playedWith recordsAfter

/-- All operations on an open definition succeed. -/
def succeeds : List Operation → Compiler → Bool
  | [], _ => true
  | op :: ops, c =>
    (c.definition.isNone || !op.inBody || (success? op.run c).isSome) && succeeds ops (c.after op)

theorem RunWith.steps {L : Type} {start l : L} {note : Compiler → L → Operation → L}
    (run : RunWith strict raw start note current l c) (ops : List Operation)
    (obeys : ∀ op ∈ ops, op.Obeys raw) (succeed : strict → succeeds ops c = true) :
    RunWith strict raw start note current (playedWith note ops l c).1
      (playedWith note ops l c).2 := by
  induction ops generalizing l c with
  | nil => exact run
  | cons op ops ih =>
    simp only [succeeds, Bool.and_eq_true, Bool.or_eq_true] at succeed
    apply ih (run.step op (obeys op List.mem_cons_self) fun all isOpen inBody => ?_)
      (fun op member => obeys op (List.mem_cons_of_mem _ member)) fun all => (succeed all).2
    rcases (succeed all).1 with (idle | outside) | done
    · exact absurd (Option.isNone_iff_eq_none.1 idle) isOpen
    · rw [inBody] at outside
      cases outside
    · obtain ⟨⟨⟨⟩, c'⟩, done⟩ := Option.isSome_iff_exists.1 done
      exact ⟨c', success?_eq_some.1 done⟩

/-- Operations on a new compiler are a run. -/
theorem Run.of_create {host : Host} {s : Settings} (created : create host s = .ok c)
    (ops : List Operation) (obeys : ∀ op ∈ ops, op.Obeys raw)
    (succeed : strict → succeeds ops c = true) :
    Run strict raw [] (played ops (fun _ => []) c).1 (played ops (fun _ => []) c).2 :=
  RunWith.steps (.create created) ops obeys succeed

end Compiler

end ForthJit
