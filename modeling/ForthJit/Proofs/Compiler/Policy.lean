import ForthJit.Proofs.Compiler.Offered
import ForthJit.Proofs.Compiler.Sketch
import ForthJit.Proofs.Memory.Protection

/-!
# Inlining does not show

Whether a call is compiled as a branch or as a copy of the body, and whether a constant becomes
moves or a literal, is a matter of the settings.  `inlining_transparent` says that it is a matter of
code alone: two compilers whose settings differ in nothing else give the same answers to the same
operations, and have the same values pending and the same dictionary after each of them.  The one
answer that shows the policy is the position of an instruction (`positions_differ`).
-/

namespace ForthJit

variable {w1 : Definition} {id : EntryId} {e : Entry} {b b1 b2 : Compiler}

/-! ## Heap operations -/

namespace CodeHeap

variable {h h' : CodeHeap}

theorem cursor_syncTo {stop : Nat} {report : SyncReport} (ok : syncTo stop h = .ok report h') :
    h'.cursor = h.cursor := by
  rcases syncTo_cases stop h with ⟨-, same⟩ |
    ⟨-, host, ⟨a, l, failed⟩ | ⟨a, l, failed⟩ | published⟩
  · cases ok.symm.trans same
    rfl
  · cases ok.symm.trans failed
  · cases ok.symm.trans failed
  · cases ok.symm.trans published
    rfl

theorem cursor_ensurePublished {stop : Nat} (ok : ensurePublished stop h = .ok () h') :
    h'.cursor = h.cursor := by
  rcases ensurePublished_cases stop h with same | run
  · cases ok.symm.trans same
    rfl
  · obtain ⟨report, h1, synced, result⟩ := bind_eq_ok.1 (run.symm.trans ok)
    cases result
    exact cursor_syncTo synced

theorem cursor_addConstant {bytes : Array UInt8} {address : Nat}
    (ok : addConstant bytes h = .ok address h') : h'.cursor = h.cursor := by
  rcases addConstant_cases bytes h with ⟨e, r, -, failed⟩ |
    ⟨position, constants, host, -, ⟨a, l, failed⟩ | ⟨a, l, failed⟩ | added⟩
  · cases ok.symm.trans failed
  · cases ok.symm.trans failed
  · cases ok.symm.trans failed
  · cases ok.symm.trans added
    rfl

theorem cursor_bindSlot {target slot : Nat} (ok : bindSlot target h = .ok slot h') :
    h'.cursor = h.cursor := by
  rcases bindSlot_cases target h with ⟨e, r, -, failed⟩ | ⟨position, table, -, bound⟩
  · cases ok.symm.trans failed
  · cases ok.symm.trans bound
    rfl

/-- Data is allocated at the cursor. -/
theorem cursor_allocateData {length align address : Nat}
    (ok : allocateData length align h = .ok address h') :
    h'.cursor = (nextMultiple h.cursor.1 (max align 1) + length, h.cursor.2) := by
  rcases allocateData_cases length align h with ⟨e, r, -, full⟩ | ⟨position, data, reserved, done⟩
  · cases ok.symm.trans full
  · cases ok.symm.trans done
    obtain ⟨rfl, -, rfl⟩ := Region.reserve_ok reserved
    rfl

theorem cursor_rewind (h : CodeHeap) (m : HeapMark) :
    (h.rewind m).cursor = (min h.cursor.1 m.data, h.cursor.2) := rfl

end CodeHeap

namespace Compiler

variable {α β : Type} {c c1 c2 : Compiler}

/-! ## Compilers that differ in code only -/

/-- Two compilers with the same convention, dictionary and open definition up to code. -/
structure SameModel (c1 c2 : Compiler) : Prop where
  convention : c1.settings.convention = c2.settings.convention
  dictionary : c1.dictionary.sketch = c2.dictionary.sketch
  definition : c1.definition.map Definition.sketch = c2.definition.map Definition.sketch
  cursor : c1.heap.cursor = c2.heap.cursor

namespace SameModel

variable (same : SameModel c1 c2)

include same

theorem open_iff (isOpen : c1.definition = some w1) :
    ∃ w2, c2.definition = some w2 ∧ w1.sketch = w2.sketch := by
  have mapped := same.definition
  rw [isOpen, Option.map_some, eq_comm] at mapped
  obtain ⟨w2, isOpen2, alike⟩ := Option.map_eq_some_iff.1 mapped
  exact ⟨w2, isOpen2, alike.symm⟩

theorem idle_iff (idle : c1.definition = none) : c2.definition = none := by
  have mapped := same.definition
  rwa [idle, Option.map_none, eq_comm, Option.map_eq_none_iff] at mapped

theorem size : c1.dictionary.size = c2.dictionary.size := by
  rw [← Dictionary.size_sketch, same.dictionary, Dictionary.size_sketch]

theorem get? (id : EntryId) :
    (c1.dictionary.get? id).map Entry.sketch = (c2.dictionary.get? id).map Entry.sketch := by
  rw [← Dictionary.get?_sketch, same.dictionary, Dictionary.get?_sketch]

/-- New heaps with the same cursor. -/
theorem withHeap {h1 h2 : CodeHeap} (cursor : h1.cursor = h2.cursor) :
    SameModel { c1 with heap := h1 } { c2 with heap := h2 } :=
  { same with cursor }

/-- What an operation on dictionaries makes of both is the same. -/
theorem withDictionary {f : Dictionary → Dictionary}
    (commutes : ∀ d, (f d).sketch = f d.sketch) :
    SameModel { c1 with dictionary := f c1.dictionary }
      { c2 with dictionary := f c2.dictionary } :=
  { same with
    dictionary := (commutes _).trans ((congrArg f same.dictionary).trans (commutes _).symm) }

/-- Snapshots of the same size bring back the same. -/
theorem restore {s1 s2 : Snapshot} (entries : s1.entries = s2.entries)
    (data : s1.heap.data = s2.heap.data) : SameModel (c1.restore s1) (c2.restore s2) where
  convention := same.convention
  dictionary := by
    show (c1.dictionary.truncate _).sketch = (c2.dictionary.truncate _).sketch
    rw [Dictionary.truncate_sketch, Dictionary.truncate_sketch, same.dictionary, entries]
  definition := rfl
  cursor := by
    show (c1.heap.rewind _).cursor = (c2.heap.rewind _).cursor
    rw [CodeHeap.cursor_rewind, CodeHeap.cursor_rewind, same.cursor, data]

theorem restoreBegun {w2 : Definition} (alike : w1.sketch = w2.sketch) :
    SameModel (c1.restore w1.snapshot) (c2.restore w2.snapshot) :=
  same.restore (congrArg (·.snapshot.entries) alike :) (congrArg (·.snapshot.heap.data) alike :)

theorem abandonWord : SameModel c1.abandonWord c2.abandonWord := by
  unfold Compiler.abandonWord
  cases isOpen1 : c1.definition with
  | none =>
    rw [same.idle_iff isOpen1]
    exact same
  | some w1 =>
    obtain ⟨w2, isOpen2, alike⟩ := same.open_iff isOpen1
    rw [isOpen2]
    exact same.restoreBegun alike

end SameModel

/-! ## Parts of operations -/

/-- Operations that agree on compilers that differ in code only. -/
abbrev Agrees (Q : α → β → Prop) (m1 : CompileM α) (m2 : CompileM β) : Prop :=
  Alongside SameModel Q m1 m2

abbrev Agree (m1 : CompileM α) (m2 : CompileM β) : Prop := Agrees (fun _ _ => True) m1 m2

theorem onHeap_agrees {Q : α → β → Prop} {op1 : HeapM α} {op2 : HeapM β}
    (moves : ∀ {h1 h2 a b h1' h2'}, h1.cursor = h2.cursor → op1 h1 = .ok a h1' →
      op2 h2 = .ok b h2' → Q a b ∧ h1'.cursor = h2'.cursor) :
    Agrees Q (onHeap op1) (onHeap op2) := by
  intro c1 c2 same
  cases outcome1 : op1 c1.heap with
  | error e h =>
    rw [onHeap_error outcome1]
    exact .left rfl
  | ok a h1 =>
    cases outcome2 : op2 c2.heap with
    | error e h =>
      rw [onHeap_error outcome2]
      exact .right rfl
    | ok b h2 =>
      rw [onHeap_ok outcome1, onHeap_ok outcome2]
      obtain ⟨results, cursor⟩ := moves same.cursor outcome1 outcome2
      exact .ok results (same.withHeap cursor)

/-- Heap operations that leave the cursor alone. -/
theorem onHeap_agree {op1 : HeapM α} {op2 : HeapM β}
    (kept1 : ∀ {h a h'}, op1 h = .ok a h' → h'.cursor = h.cursor)
    (kept2 : ∀ {h a h'}, op2 h = .ok a h' → h'.cursor = h.cursor) :
    Agree (onHeap op1) (onHeap op2) :=
  onHeap_agrees fun cursor ok1 ok2 => ⟨trivial, (kept1 ok1).trans (cursor.trans (kept2 ok2).symm)⟩

theorem emitting_agrees {Q : α → β → Prop} {m1 : Emit α} {m2 : Emit β}
    (agrees : Emit.Agrees Q m1 m2) : Agrees Q (emitting m1) (emitting m2) := by
  intro c1 c2 same
  cases isOpen1 : c1.definition with
  | none =>
    rw [emitting_none isOpen1, emitting_none (same.idle_iff isOpen1)]
    exact .error same
  | some w1 =>
    obtain ⟨w2, isOpen2, alike⟩ := same.open_iff isOpen1
    rw [emitting_some isOpen1, emitting_some isOpen2]
    have outcomes := agrees c1.settings c2.settings same.convention ⟨c1.heap, w1⟩ ⟨c2.heap, w2⟩
      ⟨alike, same.cursor⟩
    generalize m1 c1.settings ⟨c1.heap, w1⟩ = r1 at outcomes
    generalize m2 c2.settings ⟨c2.heap, w2⟩ = r2 at outcomes
    have going {d1 d2 : Draft} (alike : d1.Alike d2) :
        SameModel { c1 with heap := d1.heap, definition := some d1.word }
          { c2 with heap := d2.heap, definition := some d2.word } :=
      { same with definition := congrArg some alike.word, cursor := alike.cursor }
    cases outcomes with
    | left code => exact .left code
    | right code => exact .right code
    | ok results alike => exact .ok results (going alike)
    | error alike => exact .error (going alike)

theorem active_agrees : Agrees (fun w v => w.sketch = v.sketch) active active := by
  intro c1 c2 same
  simp only [active, bind_get]
  cases isOpen1 : c1.definition with
  | none =>
    rw [same.idle_iff isOpen1]
    exact .error same
  | some w1 =>
    obtain ⟨w2, isOpen2, alike⟩ := same.open_iff isOpen1
    rw [isOpen2]
    exact .ok alike same

theorem requireIdle_agree : Agree requireIdle requireIdle := by
  intro c1 c2 same
  simp only [requireIdle, bind_get]
  cases isOpen1 : c1.definition with
  | none =>
    rw [same.idle_iff isOpen1]
    exact .ok trivial same
  | some w1 =>
    obtain ⟨w2, isOpen2, alike⟩ := same.open_iff isOpen1
    rw [isOpen2]
    dsimp only
    rw [Definition.sketch_name alike]
    exact .error same

theorem entry_agrees (id : EntryId) :
    Agrees (fun e1 e2 => e1.sketch = e2.sketch) (entry id) (entry id) := by
  intro c1 c2 same
  have found := same.get? id
  simp only [entry, bind_get]
  cases found1 : c1.dictionary.get? id with
  | none =>
    rw [found1, Option.map_none, eq_comm, Option.map_eq_none_iff] at found
    rw [found]
    exact .error same
  | some e1 =>
    rw [found1, Option.map_some, eq_comm] at found
    obtain ⟨e2, found2, alike⟩ := Option.map_eq_some_iff.1 found
    rw [found2]
    exact .ok alike.symm same

theorem find_agrees (name : String) : Agrees Eq (find name) (find name) := by
  intro c1 c2 same
  have bound : c1.dictionary.lookup? name = c2.dictionary.lookup? name := by
    rw [← Dictionary.lookup?_sketch, same.dictionary, Dictionary.lookup?_sketch]
  simp only [find, bind_get]
  rw [bound]
  cases c2.dictionary.lookup? name with
  | none => exact .error same
  | some id => exact .ok rfl same

theorem checkCounts_agree (name : String) (counts : List (String × Nat × Nat)) :
    Agree (checkCounts name counts) (checkCounts name counts) := by
  unfold checkCounts
  split
  · exact .throw _
  · exact .pure trivial

theorem modifyDictionary_agree {f : Dictionary → Dictionary}
    (commutes : ∀ d, (f d).sketch = f d.sketch) :
    Agree (modifyDictionary f) (modifyDictionary f) :=
  .modify fun _ _ same => same.withDictionary commutes

theorem createEntry_agrees {e1 e2 : Entry} (alike : e1.sketch = e2.sketch) :
    Agrees Eq (createEntry e1) (createEntry e2) := by
  intro c1 c2 same
  refine .ok same.size { same with dictionary := ?_ }
  show (c1.dictionary.create e1).sketch = (c2.dictionary.create e2).sketch
  rw [Dictionary.create_sketch, Dictionary.create_sketch, same.dictionary, alike]

theorem publish_agree (id : EntryId) : Agree (publish id) (publish id) :=
  .modify fun _ _ same =>
    let published :=
      same.withDictionary (f := (·.publish id)) fun d => Dictionary.publish_sketch d id
    ⟨published.convention, published.dictionary, published.definition, published.cursor⟩

theorem recordCall_agree (id : EntryId) : Agree (recordCall id) (recordCall id) := by
  refine .bind active_agrees fun w v alike => ?_
  rw [Definition.sketch_entry alike]
  exact modifyDictionary_agree (f := (·.addCall v.entry id)) fun d =>
    Dictionary.addCall_sketch d v.entry id

/-- Publish the code of a callee, if it has any. -/
def publishing (e : Entry) : CompileM Entry :=
  match e.compiled? with
  | some code => do
    onHeap (CodeHeap.ensurePublished code.layout.stop)
    return e
  | none => return e

theorem publishing_cases (e : Entry) (c : Compiler) :
    (∃ error c', publishing e c = .error (.memory error) c') ∨
      ∃ heap, heap.cursor = c.heap.cursor ∧ publishing e c = .ok e { c with heap } := by
  unfold publishing
  cases e.compiled? with
  | none => exact Or.inr ⟨c.heap, rfl, rfl⟩
  | some code =>
    cases outcome : CodeHeap.ensurePublished code.layout.stop c.heap with
    | error error heap =>
      exact Or.inl ⟨error, { c with heap }, bind_of_error (onHeap_error outcome) _⟩
    | ok _ heap =>
      exact Or.inr ⟨heap, CodeHeap.cursor_ensurePublished outcome, bind_of_ok (onHeap_ok outcome) _⟩

theorem prepareCallee_agrees (id : EntryId) :
    Agrees (fun e1 e2 => e1.sketch = e2.sketch) (prepareCallee id) (prepareCallee id) := by
  refine .bind active_agrees fun w v alike => ?_
  rw [Definition.sketch_entry alike, Definition.sketch_name alike]
  dsimp only
  split
  · exact .throw _
  refine .bind (entry_agrees id) fun e1 e2 alike c1 c2 same => ?_
  show Parallel SameModel _ (publishing e1 c1) (publishing e2 c2)
  rcases publishing_cases e1 c1 with ⟨error, c', failed⟩ | ⟨h1, kept1, published1⟩
  · rw [failed]
    exact .left rfl
  rcases publishing_cases e2 c2 with ⟨error, c', failed⟩ | ⟨h2, kept2, published2⟩
  · rw [failed]
    exact .right rfl
  rw [published1, published2]
  exact .ok alike (same.withHeap (kept1.trans (same.cursor.trans kept2.symm)))

/-! ## Operations other than calls -/

theorem string_agree (text : String) : Agree (string text) (string text) :=
  .bind active_agrees fun _ _ _ =>
    .bind (onHeap_agree CodeHeap.cursor_addConstant CodeHeap.cursor_addConstant) fun _ _ _ =>
      .bind (emitting_agrees (.literal _ _)) fun _ _ _ => emitting_agrees (.literal _ _)

theorem recurse_agree : Agree recurse recurse := by
  refine .bind (emitting_agrees .recurse) fun _ _ _ => .bind active_agrees fun w v alike => ?_
  rw [Definition.sketch_entry alike]
  exact modifyDictionary_agree (f := (·.addCall v.entry v.entry)) fun d =>
    Dictionary.addCall_sketch d v.entry v.entry

theorem allocateCells_agree (cells : Nat) : Agree (allocateCells cells) (allocateCells cells) := by
  refine onHeap_agrees fun same ok1 ok2 => ⟨trivial, ?_⟩
  rw [CodeHeap.cursor_allocateData ok1, CodeHeap.cursor_allocateData ok2, same]

theorem beginWord_agrees (name : String) (signature : Signature) :
    Agrees Eq (beginWord name signature) (beginWord name signature) := by
  refine .bind requireIdle_agree fun _ _ _ => .bind (checkCounts_agree _ _) fun _ _ _ =>
    .bind .get fun b1 b2 begun => ?_
  have data : b1.heap.data.used = b2.heap.data.used := congrArg Prod.fst begun.cursor
  refine .bind (Q := fun _ _ => True) (fun c1 c2 same => Parallel.rethrow
    (onHeap_agree emitted emitted c1 c2 same) fun c1 c2 same => same.withHeap ?_) fun _ _ _ =>
      .bind (createEntry_agrees rfl) fun id _ equal => .bind (.modify fun c1 c2 same => ?_)
        fun _ _ _ => .pure equal
  · show (c1.heap.rewind _).cursor = (c2.heap.rewind _).cursor
    rw [CodeHeap.cursor_rewind, CodeHeap.cursor_rewind, same.cursor]
    exact congrArg (fun used => (min _ used, _)) data
  · refine { same with definition := congrArg some ?_ }
    simp only [Definition.sketch, snapshot, CodeHeap.mark, begun.size, data, equal]
where
  emitted {ws : List InstrWord} {h : CodeHeap} {a : Unit} {h' : CodeHeap}
      (ok : CodeHeap.emitAll ws h = .ok a h') : h'.cursor = h.cursor := by
    rw [CodeHeap.emitAll_ok ok]
    rfl

theorem finishWord_agrees {w2 : Definition} (alike : w1.sketch = w2.sketch) :
    Agrees Eq (finishWord w1) (finishWord w2) := by
  refine .bind .get fun b1 b2 before => ?_
  have thrown : (w1.raises || ((b1.dictionary.get? w1.entry).map (·.flags.throws)).getD false) =
      (w2.raises || ((b2.dictionary.get? w2.entry).map (·.flags.throws)).getD false) := by
    have flags := congrArg (Option.map (·.flags.throws)) (before.get? w2.entry)
    simp only [Option.map_map] at flags
    rw [Definition.sketch_raises alike, Definition.sketch_entry alike]
    exact congrArg (fun found => w2.raises || found.getD false) flags
  dsimp only
  rw [thrown, Definition.sketch_entry alike]
  generalize (w2.raises || _) = throws
  refine .bind (emitting_agrees (.finish throws)) fun f1 f2 _ => .bind (.modify fun c1 c2 same =>
    { same with definition := rfl }) fun _ _ _ => .bind (.modify fun c1 c2 same =>
      { same with dictionary := ?_ }) fun _ _ _ => ?_
  · have filled (f : Finished) (d : Dictionary) : (d.update w2.entry fun e =>
        { e with kind := .compiled f.code, clobbers := f.clobbers }).sketch = d.sketch :=
      Dictionary.update_sketch_same
        (f := fun e => { e with kind := .compiled f.code, clobbers := f.clobbers })
        (fun _ => rfl) d w2.entry
    exact (filled f1 _).trans (same.dictionary.trans (filled f2 _).symm)
  have synced {stop : Nat} : ∀ {h a h'}, CodeHeap.syncTo stop h = .ok a h' → h'.cursor = h.cursor :=
    CodeHeap.cursor_syncTo
  cases throws with
  | false =>
    exact .bind (publish_agree _) fun _ _ _ => .bind (onHeap_agree synced synced) fun _ _ _ =>
      .pure rfl
  | true =>
    exact .bind (modifyDictionary_agree (f := (·.markThrows w2.entry)) fun d =>
      Dictionary.markThrows_sketch d w2.entry) fun _ _ _ => .bind (publish_agree _) fun _ _ _ =>
        .bind (onHeap_agree synced synced) fun _ _ _ => .pure rfl

theorem endWord_agrees : Agrees Eq endWord endWord :=
  .bind active_agrees fun _ _ alike c1 c2 same =>
    Parallel.rethrow (finishWord_agrees alike c1 c2 same) fun _ _ same => same.restoreBegun alike

theorem definePrimitive_agrees (name : String) (inputs outputs : Nat) (clobbers : RegSet)
    (body : List InstrWord) :
    Agrees Eq (definePrimitive name inputs outputs clobbers body)
      (definePrimitive name inputs outputs clobbers body) :=
  .bind (beginWord_agrees name _) fun _ _ _ => .bind (Q := fun _ _ => True)
    (fun c1 c2 same => Parallel.rethrow
      (emitting_agrees (.primitiveBody inputs outputs clobbers body) c1 c2 same)
      fun _ _ same => same.abandonWord) fun _ _ _ => endWord_agrees

theorem bindExternal_agrees (name : String) (inputs outputs address1 address2 : Nat) :
    Agrees Eq (bindExternal name inputs outputs address1)
      (bindExternal name inputs outputs address2) := by
  refine .bind requireIdle_agree fun _ _ _ => .bind (checkCounts_agree _ _) fun _ _ _ =>
    .bind (onHeap_agree CodeHeap.cursor_bindSlot CodeHeap.cursor_bindSlot) fun _ _ _ =>
      .bind (createEntry_agrees rfl) fun id _ equal => ?_
  obtain rfl := equal
  exact .bind (publish_agree id) fun _ _ _ => .pure rfl

theorem resolveExternal_agrees (name : String) (inputs outputs : Nat) :
    Agrees Eq (resolveExternal name inputs outputs) (resolveExternal name inputs outputs) := by
  refine .bind .get fun b1 b2 begun => ?_
  have found : (b1.heap.memory.platform.resolve? name).isSome =
      (b2.heap.memory.platform.resolve? name).isSome :=
        congrFun (congrArg Prod.snd begun.cursor) name
  cases found1 : b1.heap.memory.platform.resolve? name with
  | none =>
    rw [found1, eq_comm, Option.isSome_none, Option.isSome_eq_false_iff, Option.isNone_iff_eq_none]
      at found
    rw [found]
    exact .throw _
  | some address1 =>
    rw [found1, eq_comm, Option.isSome_some] at found
    obtain ⟨address2, found2⟩ := Option.isSome_iff_exists.1 found
    rw [found2]
    exact bindExternal_agrees _ _ _ _ _

/-! ## Calls -/

/-- An emission that calls `callee`, by a branch or by a copy of its body. -/
def Invokes (callee : Entry) (action : Emit Unit) : Prop :=
  action = Emit.call callee ∨
    callee.flags.throws = false ∧ ∃ body, action = Emit.inlineBody callee body

theorem Invokes.agree {e1 e2 : Entry} {m1 m2 : Emit Unit} (alike : e1.sketch = e2.sketch)
    (invokes1 : Invokes e1 m1) (invokes2 : Invokes e2 m2) : Emit.Agree m1 m2 := by
  rcases invokes1 with rfl | ⟨quiet, body1, rfl⟩ <;> rcases invokes2 with rfl | ⟨quiet, body2, rfl⟩
  · exact .call alike
  · have flags : e1.flags = e2.flags := (congrArg Entry.flags alike :)
    exact .call_inlineBody alike (flags ▸ quiet) body2
  · have flags : e1.flags = e2.flags := (congrArg Entry.flags alike :)
    exact (Emit.Agrees.call_inlineBody alike.symm (flags ▸ quiet) body1).symm
  · exact .inlineBody alike body1 body2

/-- A prepared callee is prepared again without notice. -/
theorem prepareCallee_again
    (prepared : prepareCallee id b = .ok e c) :
    (∃ error c', prepareCallee id c = .error (.memory error) c') ∨
      ∃ heap, heap.cursor = c.heap.cursor ∧ prepareCallee id c = .ok e { c with heap } := by
  obtain ⟨w, heap, isOpen, other, found, -, -, rfl⟩ := prepareCallee_ok prepared
  have again : prepareCallee id { b with heap } = publishing e { b with heap } := by
    refine (bind_of_ok (active_some (c := { b with heap }) isOpen) _).trans ?_
    rw [if_neg other]
    exact bind_of_ok (entry_some (c := { b with heap }) found) _
  rw [again]
  exact publishing_cases e _

/-- A body that is offered is copied. -/
theorem inlineCall_cases {b0 : Compiler} {code : CompiledWord}
    (prepared : prepareCallee id b = .ok e c) (offering : Offering b0 c)
    (compiled : e.compiled? = some code) (inlinable : code.inlinable = true) :
    (∃ error c', inlineCall id c = .error error c' ∧ error.aboutCode = true) ∨
      ∃ action heap, Invokes e action ∧ heap.cursor = c.heap.cursor ∧
        inlineCall id c = (do emitting action; recordCall id) { c with heap } := by
  have copyable : code.inlineRefusal? e.flags.throws = none := by
    obtain ⟨-, _, -, -, found, -, -, rfl⟩ := prepareCallee_ok prepared
    exact offering.offered id e found code (Entry.compiled?_eq_some.1 compiled) inlinable
  have quiet : e.flags.throws = false := by
    unfold CompiledWord.inlineRefusal? at copyable
    grind
  rcases prepareCallee_again prepared with ⟨error, c', failed⟩ | ⟨heap, cursor, ready⟩
  · exact Or.inl ⟨_, c', bind_of_error failed _, rfl⟩
  · let body := (heap.words code.layout.body code.layout.epilogue).toList
    refine Or.inr ⟨Emit.inlineBody e body, heap, Or.inr ⟨quiet, body, rfl⟩, cursor, ?_⟩
    rw [inlineCall, bind_of_ok ready]
    dsimp only
    rw [compiled]
    dsimp only
    rw [copyable]
    rfl

/-- Call a callee that has been prepared. -/
def calling (id : EntryId) (e : Entry) : CompileM Unit := do
  if (e.compiled?.map (·.inlinable)).getD false && (← get).settings.autoInline then
    inlineCall id
  else
    emitting (Emit.call e)
    recordCall id

theorem calling_cases {b0 : Compiler}
    (prepared : prepareCallee id b = .ok e c) (offering : Offering b0 c) :
    (∃ error c', calling id e c = .error error c' ∧ error.aboutCode = true) ∨
      ∃ action heap, Invokes e action ∧ heap.cursor = c.heap.cursor ∧
        calling id e c = (do emitting action; recordCall id) { c with heap } := by
  rw [calling, bind_get]
  split
  next copied =>
    rw [Bool.and_eq_true] at copied
    cases compiled : e.compiled? with
    | none =>
      rw [compiled] at copied
      cases copied.1
    | some code =>
      rw [compiled] at copied
      exact inlineCall_cases prepared offering compiled copied.1
  next => exact Or.inr ⟨Emit.call e, c.heap, Or.inl rfl, rfl, rfl⟩

/-- However each of two compilers compiles a call, the other does not notice. -/
theorem call_parallel (same : SameModel c1 c2) (offering1 : Offering b1 c1)
    (offering2 : Offering b2 c2) (id : EntryId) :
    Parallel SameModel (fun _ _ => True) (call id c1) (call id c2) := by
  refine (prepareCallee_agrees id c1 c2 same).bind fun e1 e2 c1' c2' prepared1 prepared2 alike
    same' => ?_
  have ready {b c c' : Compiler} {e : Entry} (offering : Offering b c)
      (prepared : prepareCallee id c = .ok e c') : Offering b c' := by
    obtain ⟨-, heap, -, -, -, -, grows, rfl⟩ := prepareCallee_ok prepared
    exact (offering_invariant b).heap offering grows
  show Parallel SameModel _ (calling id e1 c1') (calling id e2 c2')
  rcases calling_cases prepared1 (ready offering1 prepared1) with
    ⟨error, c', failed, code⟩ | ⟨m1, h1, invokes1, kept1, calls1⟩
  · rw [failed]
    exact .left code
  rcases calling_cases prepared2 (ready offering2 prepared2) with
    ⟨error, c', failed, code⟩ | ⟨m2, h2, invokes2, kept2, calls2⟩
  · rw [failed]
    exact .right code
  rw [calls1, calls2]
  have recorded : Agree (do emitting m1; recordCall id) (do emitting m2; recordCall id) :=
    .bind (emitting_agrees (invokes1.agree alike invokes2)) fun _ _ _ => recordCall_agree id
  exact recorded _ _ (same'.withHeap (kept1.trans (same'.cursor.trans kept2.symm)))

theorem word_parallel (same : SameModel c1 c2) (offering1 : Offering b1 c1)
    (offering2 : Offering b2 c2) (name : String) :
    Parallel SameModel (fun _ _ => True) (word name c1) (word name c2) := by
  refine (active_agrees c1 c2 same).bind fun w v c1' c2' got1 got2 alike same => ?_
  obtain ⟨rfl, -⟩ := active_ok got1
  obtain ⟨rfl, -⟩ := active_ok got2
  rw [← Locals.find?_sketch w.locals, ← Locals.find?_sketch v.locals,
    Definition.sketch_locals alike]
  split
  · exact emitting_agrees (.getLocalCalled name) _ _ same
  · refine (find_agrees name _ _ same).bind fun id _ c1' c2' found1 found2 equal same => ?_
    obtain rfl := equal
    obtain ⟨rfl, -⟩ := find_ok found1
    obtain ⟨rfl, -⟩ := find_ok found2
    exact call_parallel same offering1 offering2 id

/-! ## Answers -/

end Compiler

/-- What an operation gives back. -/
inductive Answer where
  | done
  | entry (id : EntryId)
  | address (a : Nat)
  | values (vs : List Cell)
  /-- The position of an instruction. -/
  | position (i : Nat)
  deriving DecidableEq

/-- The answer without the position or the address that it may give. -/
def Answer.unplaced : Answer → Answer
  | position _ => position 0
  | address _ => address 0
  | answer => answer

namespace Operation

/-- The operations by which words are defined.  A call is compiled as the settings want it. -/
def defines : Operation → Bool
  | .inlineCall _ | .entryAddress _ | .epilogueAddress _ | .invoke .. | .refuse _ => false
  | _ => true

/-- Perform an operation, with its answer. -/
def perform (op : Operation) : CompileM Answer :=
  match op with
  | .beginWord name signature => return .entry (← Compiler.beginWord name signature)
  | .instruction w clobbers => return .position (← Compiler.instruction w clobbers)
  | .endWord => return .entry (← Compiler.endWord)
  | .definePrimitive name inputs outputs clobbers body =>
    return .entry (← Compiler.definePrimitive name inputs outputs clobbers body)
  | .bindExternal name inputs outputs address =>
    return .entry (← Compiler.bindExternal name inputs outputs address)
  | .resolveExternal name inputs outputs =>
    return .entry (← Compiler.resolveExternal name inputs outputs)
  | .allocateCells cells => return .address (← Compiler.allocateCells cells)
  | .entryAddress id => return .address (← Compiler.entryAddress id)
  | .epilogueAddress id => return .address (← Compiler.epilogueAddress id)
  | .invoke id args => return .values (← Compiler.invoke id args)
  | op => do
    op.run
    return .done

theorem stateAfter_perform (op : Operation) (c : Compiler) :
    stateAfter op.perform c = c.after op := by
  have ignored {α : Type} (m : CompileM α) (f : α → Answer) :
      stateAfter (do return f (← m)) c = stateAfter m c := by
    rw [stateAfter_bind, stateAfter]
    cases m c <;> rfl
  cases op <;> first | exact ignored _ _ | exact (ignored _ _).trans (stateAfter_ignore _ _).symm

end Operation

/-- What can be seen of an entry: all but its code. -/
structure Symbol where
  name : String
  inputs : Nat
  outputs : Nat
  flags : EntryFlags
  visible : Bool
  callees : List EntryId
  callers : List EntryId
  deriving DecidableEq

def Entry.symbol (e : Entry) : Symbol :=
  { name := e.name, inputs := e.inputs, outputs := e.outputs, flags := e.flags,
    visible := e.visible, callees := e.callees, callers := e.callers }

/-- What can be seen of a compiler after an operation. -/
structure View where
  answer : Except CompileError Answer
  /-- Values pending in the open definition. -/
  depth : Option Nat
  symbols : List Symbol
  bindings : List (String × EntryId)
  deriving DecidableEq

/-- Settings that differ at most in what is inlined and in how constants are loaded. -/
def Settings.EqualUpToInlining (s1 s2 : Settings) : Prop :=
  { s1 with
    autoInline := s2.autoInline
    inlineThreshold := s2.inlineThreshold
    maxInlineChunks := s2.maxInlineChunks } = s2

namespace View

/-- The view without the position or the address that the answer may give. -/
def unplaced (v : View) : View := { v with answer := v.answer.map Answer.unplaced }

/-- Whether the operation failed because of code. -/
def failedInCode (v : View) : Bool :=
  match v.answer with
  | .error e => e.aboutCode
  | .ok _ => false

end View

namespace Compiler

def view (c : Compiler) (answer : Except CompileError Answer) : View :=
  { answer, depth := c.depth?, symbols := c.dictionary.entries.toList.map Entry.symbol,
    bindings := c.dictionary.bindings }

/-- Perform operations one after the other, and look at the compiler after each. -/
def views (c : Compiler) : List Operation → List View
  | [] => []
  | op :: ops =>
    match op.perform c with
    | .ok a c' => c'.view (.ok a) :: c'.views ops
    | .error e c' => c'.view (.error e) :: c'.views ops

/-- Compilers that differ in code only look the same. -/
theorem SameModel.view (same : SameModel c1 c2) {r1 r2 : Except CompileError Answer}
    (answers : r1.map Answer.unplaced = r2.map Answer.unplaced) :
    (c1.view r1).unplaced = (c2.view r2).unplaced := by
  have depth : c1.depth? = c2.depth? := by
    have mapped := congrArg (Option.map Definition.depth) same.definition
    simp only [Option.map_map] at mapped
    exact mapped
  have symbols : c1.dictionary.entries.toList.map Entry.symbol =
      c2.dictionary.entries.toList.map Entry.symbol := by
    have mapped :=
      congrArg (fun d : Dictionary => d.entries.toList.map Entry.symbol) same.dictionary
    simp only [Dictionary.sketch, Array.toList_map, List.map_map] at mapped
    exact mapped
  have bindings : c1.dictionary.bindings = c2.dictionary.bindings :=
    (congrArg Dictionary.bindings same.dictionary :)
  simp only [Compiler.view, View.unplaced, answers, depth, symbols, bindings]

/-- One operation: the answers are the same, and so are the compilers up to code. -/
theorem perform_parallel (same : SameModel c1 c2) (offering1 : Offering b1 c1)
    (offering2 : Offering b2 c2) {op : Operation} (defines : op.defines = true) :
    Parallel SameModel (fun a b => a.unplaced = b.unplaced) (op.perform c1) (op.perform c2) := by
  have answered {α β : Type} {Q : α → β → Prop} {m1 : CompileM α} {m2 : CompileM β}
      {f : α → Answer} {g : β → Answer} (agreed : Parallel SameModel Q (m1 c1) (m2 c2))
      (answers : ∀ a b, Q a b → (f a).unplaced = (g b).unplaced) :
      Parallel SameModel (fun a b => a.unplaced = b.unplaced)
        ((do return f (← m1) : CompileM Answer) c1) ((do return g (← m2) : CompileM Answer) c2) :=
    agreed.bind fun a b _ _ _ _ results states => .ok (answers a b results) states
  have emitted {m1 m2 : Emit Unit} (agree : Emit.Agree m1 m2) :
      Parallel SameModel (fun a b => a.unplaced = b.unplaced)
        ((do emitting m1; return Answer.done) c1) ((do emitting m2; return Answer.done) c2) :=
    answered (emitting_agrees agree c1 c2 same) fun _ _ _ => rfl
  have found {f : EntryId → Answer} : ∀ a b, a = b → (f a).unplaced = (f b).unplaced :=
    fun _ _ equal => congrArg (Answer.unplaced ∘ f) equal
  cases op with
  | beginWord name signature => exact answered (beginWord_agrees name signature c1 c2 same) found
  | literal value => exact emitted (.literal value value)
  | string text => exact answered (string_agree text c1 c2 same) fun _ _ _ => rfl
  | setLocal name => exact emitted (.setLocal name)
  | getLocal name => exact emitted (.getLocalCalled name)
  | word name => exact answered (word_parallel same offering1 offering2 name) fun _ _ _ => rfl
  | instruction w clobbers =>
    exact answered (emitting_agrees ((Emit.Silent.instruction w clobbers).agree
      (.instruction w clobbers)) c1 c2 same) fun _ _ _ => rfl
  | call id => exact answered (call_parallel same offering1 offering2 id) fun _ _ _ => rfl
  | ifPart => exact emitted .ifPart
  | elsePart => exact emitted .elsePart
  | thenPart => exact emitted .thenPart
  | exit => exact emitted .exit
  | raise => exact emitted .raise
  | recurse => exact answered (recurse_agree c1 c2 same) fun _ _ _ => rfl
  | endWord => exact answered (endWord_agrees c1 c2 same) found
  | abandonWord => exact .ok rfl same.abandonWord
  | definePrimitive name inputs outputs clobbers body =>
    exact answered (definePrimitive_agrees name inputs outputs clobbers body c1 c2 same) found
  | bindExternal name inputs outputs address =>
    exact answered (bindExternal_agrees name inputs outputs address address c1 c2 same) found
  | resolveExternal name inputs outputs =>
    exact answered (resolveExternal_agrees name inputs outputs c1 c2 same) found
  | allocateCells cells => exact answered (allocateCells_agree cells c1 c2 same) fun _ _ _ => rfl
  | inlineCall | entryAddress | epilogueAddress | invoke | refuse => cases defines

/-- Operations keep what is offered for inlining copyable. -/
theorem Offering.after (offering : Offering b c) (op : Operation) :
    Offering b (c.after op) :=
  ((offering_session b).run op fun _ _ => trivial).after offering

theorem views_same {ops : List Operation} (same : SameModel c1 c2)
    (offering1 : Offering b1 c1) (offering2 : Offering b2 c2)
    (defining : ∀ op ∈ ops, op.defines = true)
    (coded1 : ∀ v ∈ c1.views ops, v.failedInCode = false)
    (coded2 : ∀ v ∈ c2.views ops, v.failedInCode = false) :
    (c1.views ops).map View.unplaced = (c2.views ops).map View.unplaced := by
  induction ops generalizing c1 c2 with
  | nil => rfl
  | cons op ops ih =>
    have defines := defining op List.mem_cons_self
    have outcomes := perform_parallel same offering1 offering2 defines
    have after1 := offering1.after op
    have after2 := offering2.after op
    rw [← op.stateAfter_perform] at after1 after2
    rw [views] at coded1 coded2 ⊢
    rw [views]
    rw [stateAfter] at after1 after2
    generalize op.perform c1 = r1 at outcomes coded1 after1 ⊢
    generalize op.perform c2 = r2 at outcomes coded2 after2 ⊢
    have later := fun op member => defining op (List.mem_cons_of_mem _ member)
    cases outcomes with
    | left code => cases code.symm.trans (coded1 _ List.mem_cons_self)
    | right code => cases code.symm.trans (coded2 _ List.mem_cons_self)
    | @ok a b _ _ answers states =>
      have answered : (Except.ok a : Except CompileError Answer).map Answer.unplaced =
          (Except.ok b : Except CompileError Answer).map Answer.unplaced :=
            congrArg Except.ok answers
      rw [List.map_cons, List.map_cons, states.view answered,
        ih states after1 after2 later (fun v member => coded1 v (List.mem_cons_of_mem _ member))
          fun v member => coded2 v (List.mem_cons_of_mem _ member)]
    | error states =>
      rw [List.map_cons, List.map_cons, states.view rfl,
        ih states after1 after2 later (fun v member => coded1 v (List.mem_cons_of_mem _ member))
          fun v member => coded2 v (List.mem_cons_of_mem _ member)]

/-! ## New compilers -/

theorem forM_agree {f : α → CompileM PUnit} {xs : List α} (each : ∀ x, Agree (f x) (f x)) :
    Agree (xs.forM f) (xs.forM f) := by
  induction xs with
  | nil => exact .pure trivial
  | cons x xs ih => exact .bind (each x) fun _ _ _ => ih

theorem builtIn_agree : Agree builtIn builtIn := by
  refine .bind (forM_agree fun i => ?_) fun _ _ _ => forM_agree fun p =>
    .bind (definePrimitive_agrees _ _ _ _ _) fun _ _ _ => .pure trivial
  refine .bind (createEntry_agrees rfl) fun id _ equal => ?_
  obtain rfl := equal
  exact publish_agree id

theorem cursor_startHeap {s : Settings} {thunk : Nat} {h h' : CodeHeap}
    (started : startHeap s h = .ok thunk h') : h'.cursor = h.cursor := by
  obtain ⟨entry, h1, emitted, rest⟩ := bind_eq_ok.1 started
  obtain ⟨_, h2, published, result⟩ := bind_eq_ok.1 rest
  cases result
  have first : h1.cursor = h.cursor := by
    unfold Convention.emitThunk at emitted
    cases code : s.convention.thunk with
    | error e =>
      rw [code] at emitted
      cases emitted
    | ok code' =>
      rw [code] at emitted
      dsimp only at emitted
      cases staged : CodeHeap.emitAll (code'.map Instruction.encode) h with
      | error e h2 =>
        rw [staged] at emitted
        cases emitted
      | ok _ h2 =>
        rw [staged] at emitted
        cases emitted
        rw [CodeHeap.emitAll_ok staged]
        rfl
  have second : h'.cursor = h1.cursor := by
    cases synced : CodeHeap.sync h1 with
    | error e h2 =>
      rw [synced] at published
      cases published
    | ok report h2 =>
      rw [synced] at published
      cases published
      exact CodeHeap.cursor_syncTo synced
  exact second.trans first

variable {host1 host2 : Host} {s1 s2 : Settings}

/-- The hosts find the same functions, if at different addresses. -/
def SameFunctions (host1 host2 : Host) : Prop :=
  ∀ name, (host1.platform.function? name).isSome = (host2.platform.function? name).isSome

theorem cursor_create {host : Host} {layout : HeapLayout} {heap : CodeHeap}
    (made : CodeHeap.create host layout = .ok heap) :
    heap.cursor = (0, fun name => (host.platform.resolve? name).isSome) := by
  obtain ⟨-, -, -, data⟩ := CodeHeap.create_empty made
  obtain ⟨-, platform, -⟩ := CodeHeap.create_mapped made
  rw [CodeHeap.cursor, data, platform]

/-- New compilers differ in code only, if their settings have the same convention and their hosts
find the same functions. -/
theorem SameModel.create (functions : SameFunctions host1 host2)
    (convention : s1.convention = s2.convention) (created1 : Compiler.create host1 s1 = .ok c1)
    (created2 : Compiler.create host2 s2 = .ok c2) : SameModel c1 c2 := by
  obtain ⟨heap1, _, cells1, thunk1, h1, made1, started1, built1⟩ := create_cases created1
  obtain ⟨heap2, _, cells2, thunk2, h2, made2, started2, built2⟩ := create_cases created2
  have found : (fun name => (host1.platform.resolve? name).isSome) =
      fun name => (host2.platform.resolve? name).isSome := by
    funext name
    unfold Platform.resolve?
    split
    · rfl
    · exact functions name
  have cursor : h1.cursor = h2.cursor := by
    rw [cursor_startHeap started1, cursor_startHeap started2]
    exact (cursor_create made1).trans ((congrArg (0, ·) found).trans (cursor_create made2).symm)
  have outcomes := builtIn_agree (wordless s1 h1 cells1 thunk1) (wordless s2 h2 cells2 thunk2)
    ⟨convention, rfl, rfl, cursor⟩
  rw [built1, built2] at outcomes
  cases outcomes with
  | ok _ same => exact same

/-- As long as no operation fails because of code, the inlining policy shows in no answer but the
position of an instruction, not in the pending values and not in the dictionary.  Nor does the host,
except in addresses, as long as the same functions are found. -/
theorem inlining_transparent (functions : SameFunctions host1 host2)
    (equal : s1.EqualUpToInlining s2) (created1 : create host1 s1 = .ok c1)
    (created2 : create host2 s2 = .ok c2) {ops : List Operation}
    (defining : ∀ op ∈ ops, op.defines = true)
    (coded1 : ∀ v ∈ c1.views ops, v.failedInCode = false)
    (coded2 : ∀ v ∈ c2.views ops, v.failedInCode = false) :
    (c1.views ops).map View.unplaced = (c2.views ops).map View.unplaced := by
  obtain ⟨b1, offering1⟩ := create_offering created1
  obtain ⟨b2, offering2⟩ := create_offering created2
  have convention : s1.convention = s2.convention := (congrArg Settings.convention equal :)
  exact views_same (.create functions convention created1 created2) offering1 offering2 defining
    coded1 coded2

/-- Sessions that differ in the policy: one copies bodies and the others call them, with an error, a
branch and a large constant on the way.  They put an instruction at different positions, and the
last one has its data at another address. -/
theorem two_policies :
    ∃ (s1 s2 : Settings) (c1 c2 c3 : Compiler) (ops : List Operation), s1.EqualUpToInlining s2 ∧
      create {} s1 = .ok c1 ∧ create {} s2 = .ok c2 ∧ create { mapped := 1 } s2 = .ok c3 ∧
      (∀ op ∈ ops, op.defines = true) ∧
      (∀ c ∈ [c1, c2, c3], ∀ v ∈ c.views ops, v.failedInCode = false) ∧
      c1.views ops ≠ c2.views ops ∧ c2.views ops ≠ c3.views ops := by
  let s1 : Settings := {}
  let s2 : Settings := { autoInline := false, inlineThreshold := 0, maxInlineChunks := 1 }
  let ops : List Operation := [.allocateCells 1, .beginWord "square" { inputs := 1, outputs := 1 },
    .word "dup", .word "*", .endWord, .beginWord "f" { inputs := 1, outputs := 1 }, .word "square",
    .word "+", .setLocal "n", .literal 0x123456789, .word "n", .word "<", .ifPart, .word "n",
    .raise, .thenPart, .word "n", .endWord, .beginWord "g" { inputs := 1, outputs := 1 },
    .word "f", .instruction Instruction.nop.encode .empty]
  have run (host : Host) (s : Settings) (address position : Nat)
      (seen : (create host s).toOption.map (fun c =>
        let vs := c.views ops
        (vs.all fun v => !v.failedInCode, vs.head?.map (·.answer), vs.getLast?.map (·.answer))) =
          some (true, some (.ok (.address address)), some (.ok (.position position)))) :
      ∃ c, create host s = .ok c ∧ (∀ v ∈ c.views ops, v.failedInCode = false) ∧
        (c.views ops).head?.map (·.answer) = some (.ok (.address address)) ∧
        (c.views ops).getLast?.map (·.answer) = some (.ok (.position position)) := by
    obtain ⟨c, created, seen⟩ := toOption_map.1 seen
    simp only [Prod.mk.injEq] at seen
    refine ⟨c, created, fun v member => ?_, seen.2⟩
    simpa using List.all_eq_true.1 seen.1 v member
  obtain ⟨c1, created1, coded1, -, last1⟩ := run {} s1 0x1000814000 189 (by decide +kernel)
  obtain ⟨c2, created2, coded2, first2, last2⟩ := run {} s2 0x1000814000 187 (by decide +kernel)
  obtain ⟨c3, created3, coded3, first3, -⟩ :=
    run { mapped := 1 } s2 0x1100814000 187 (by decide +kernel)
  refine ⟨s1, s2, c1, c2, c3, ops, rfl, created1, created2, created3, by decide,
    by simpa using ⟨coded1, coded2, coded3⟩, fun same => ?_, fun same => ?_⟩
  · rw [same, last2] at last1
    cases last1
  · rw [same, first3] at first2
    cases first2

theorem inlining_transparent_for_words :
    ∃ (s1 s2 : Settings) (c1 c2 : Compiler) (ops : List Operation), s1.EqualUpToInlining s2 ∧
      create {} s1 = .ok c1 ∧ create { mapped := 1 } s2 = .ok c2 ∧
      (∀ op ∈ ops, op.defines = true) ∧ (∀ v ∈ c1.views ops, v.failedInCode = false) ∧
      (∀ v ∈ c2.views ops, v.failedInCode = false) ∧
      (c1.views ops).map View.unplaced = (c2.views ops).map View.unplaced := by
  obtain ⟨s1, s2, c1, c2, c3, ops, equal, created1, -, created3, defining, coded, -, -⟩ :=
    two_policies
  have coded1 := coded c1 (by simp)
  have coded3 := coded c3 (by simp)
  have functions : SameFunctions {} { mapped := 1 } := fun _ => rfl
  exact ⟨s1, s2, c1, c3, ops, equal, created1, created3, defining, coded1, coded3,
    inlining_transparent functions equal created1 created3 defining coded1 coded3⟩

/-- The position of an instruction shows what was inlined before it. -/
theorem positions_differ :
    ¬ ∀ (s1 s2 : Settings) (c1 c2 : Compiler) (ops : List Operation), s1.EqualUpToInlining s2 →
      create {} s1 = .ok c1 → create {} s2 = .ok c2 → (∀ op ∈ ops, op.defines = true) →
      (∀ v ∈ c1.views ops, v.failedInCode = false) →
      (∀ v ∈ c2.views ops, v.failedInCode = false) → c1.views ops = c2.views ops := by
  intro transparent
  obtain ⟨s1, s2, c1, c2, c3, ops, equal, created1, created2, -, defining, coded, other, -⟩ :=
    two_policies
  exact other (transparent s1 s2 c1 c2 ops equal created1 created2 defining (coded c1 (by simp))
    (coded c2 (by simp)))

end Compiler

end ForthJit
