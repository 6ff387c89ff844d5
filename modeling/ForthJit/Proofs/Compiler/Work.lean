import ForthJit.Compiler.Create
import ForthJit.Compiler.Execution
import ForthJit.Proofs.Compiler.Confined
import ForthJit.Proofs.Dictionary.WellFormed

/-!
# What an operation does to the open definition

A compiler is used by one operation after the other.  Whatever operation works on the open
definition, code gets into it in one of a few ways, an `Action`.  `Worked` says how a compiler got
where it is since its definition was opened: by actions, each with the call that it records, and by
changes of the heap that stage nothing; `Acted` also remembers what was staged by each.  Every
property of a definition can then be proved by one case for each action.
-/

namespace ForthJit

/-- The public operations of a compiler other than `restore`, and a new schedule of refused
protection changes. -/
inductive Operation where
  | beginWord (name : String) (signature : Signature)
  | literal (value : Cell)
  | string (text : String)
  | setLocal (name : String)
  | getLocal (name : String)
  | word (name : String)
  | instruction (w : InstrWord) (clobbers : RegSet)
  | call (id : EntryId)
  | inlineCall (id : EntryId)
  | ifPart
  | elsePart
  | thenPart
  | exit
  | raise
  | recurse
  | endWord
  | abandonWord
  | definePrimitive (name : String) (inputs outputs : Nat) (clobbers : RegSet)
      (body : List InstrWord)
  | bindExternal (name : String) (inputs outputs address : Nat)
  | resolveExternal (name : String) (inputs outputs : Nat)
  | allocateCells (cells : Nat)
  | entryAddress (id : EntryId)
  | epilogueAddress (id : EntryId)
  | invoke (id : EntryId) (args : List Cell)
  | refuse (refusals : List Nat)

/-- Perform an operation, whatever its result. -/
def Operation.run : Operation → CompileM Unit
  | .beginWord name signature => do let _ ← Compiler.beginWord name signature
  | .literal value => Compiler.literal value
  | .string text => Compiler.string text
  | .setLocal name => Compiler.setLocal name
  | .getLocal name => Compiler.getLocal name
  | .word name => Compiler.word name
  | .instruction w clobbers => do let _ ← Compiler.instruction w clobbers
  | .call id => Compiler.call id
  | .inlineCall id => Compiler.inlineCall id
  | .ifPart => Compiler.ifPart
  | .elsePart => Compiler.elsePart
  | .thenPart => Compiler.thenPart
  | .exit => Compiler.exit
  | .raise => Compiler.raise
  | .recurse => Compiler.recurse
  | .endWord => do let _ ← Compiler.endWord
  | .abandonWord => modify Compiler.abandonWord
  | .definePrimitive name inputs outputs clobbers body => do
    let _ ← Compiler.definePrimitive name inputs outputs clobbers body
  | .bindExternal name inputs outputs address => do
    let _ ← Compiler.bindExternal name inputs outputs address
  | .resolveExternal name inputs outputs => do
    let _ ← Compiler.resolveExternal name inputs outputs
  | .allocateCells cells => do let _ ← Compiler.allocateCells cells
  | .entryAddress id => do let _ ← Compiler.entryAddress id
  | .epilogueAddress id => do let _ ← Compiler.epilogueAddress id
  | .invoke id args => do let _ ← Compiler.invoke id args
  | .refuse refusals => modify fun c => { c with heap := c.heap.refuse refusals }

/-- Whether an operation works on the open definition, or on none. -/
def Operation.inBody : Operation → Bool
  | .beginWord .. | .endWord | .abandonWord | .definePrimitive .. | .bindExternal ..
  | .resolveExternal .. | .invoke .. => false
  | _ => true

/-- An operation that has succeeded on an open definition. -/
structure Event where
  op : Operation
  /-- The entry that it has called, if any. -/
  callee : Option EntryId
  /-- Where the words that it has staged begin and end. -/
  start : Nat
  stop : Nat

/-- The ways in which code gets into a definition. -/
inductive Action where
  | literal (value : Cell)
  | setLocal (name : String)
  | getLocal (name : String)
  | instruction (w : InstrWord) (clobbers : RegSet)
  | primitive (inputs outputs : Nat) (clobbers : RegSet) (body : List InstrWord)
  | call (id : EntryId) (callee : Entry)
  | inline (id : EntryId) (callee : Entry) (body : List InstrWord)
  | ifPart
  | elsePart
  | thenPart
  | exit
  | raise
  | recurse

namespace Action

def emit : Action → Emit Unit
  | literal value => Emit.literal value
  | setLocal name => Emit.setLocal name
  | getLocal name => Emit.getLocalCalled name
  | instruction w clobbers => do let _ ← Emit.instruction w clobbers
  | primitive inputs outputs clobbers body => Emit.primitiveBody inputs outputs clobbers body
  | call _ callee => Emit.call callee
  | inline _ callee body => Emit.inlineBody callee body
  | ifPart => Emit.ifPart
  | elsePart => Emit.elsePart
  | thenPart => Emit.thenPart
  | exit => Emit.exit
  | raise => Emit.raise
  | recurse => Emit.recurse

/-- The entry that the definition `w` calls by it. -/
def callee? (w : Definition) : Action → Option EntryId
  | call id _ | inline id _ _ => some id
  | recurse => some w.entry
  | _ => none

/-- The dictionary with the call that the definition `w` makes by it. -/
def record (w : Definition) (a : Action) (d : Dictionary) : Dictionary :=
  match a.callee? w with
  | some id => d.addCall w.entry id
  | none => d

/-- What is known when `a` is done in the definition `w` of `c`. -/
def Fits (c : Compiler) (w : Definition) : Action → Prop
  | primitive inputs outputs _ _ => w.depth = inputs ∧ inputs ≤ maxValues ∧ outputs ≤ maxValues
  | call id callee => id ≠ w.entry ∧ c.dictionary.get? id = some callee
  | inline id callee body => id ≠ w.entry ∧ c.dictionary.get? id = some callee ∧
      ∃ code, callee.kind = .compiled code ∧ code.inlineRefusal? callee.flags.throws = none ∧
        body = (c.heap.words code.layout.body code.layout.epilogue).toList
  | _ => True

variable {a : Action} {w : Definition}

/-- What is called other than by recursion is another entry. -/
theorem Fits.callee_other {c : Compiler} {w' : Definition} (fits : a.Fits c w)
    (other : a ≠ .recurse) {id : Nat} (called : a.callee? w' = some id) :
    id ≠ w.entry ∧ id < c.dictionary.size := by
  cases a with
  | call id' callee =>
    cases called
    exact ⟨fits.1, Dictionary.get?_lt fits.2⟩
  | inline id' callee body =>
    cases called
    exact ⟨fits.1, Dictionary.get?_lt fits.2.1⟩
  | recurse => exact absurd rfl other
  | _ => cases called

/-- What is called is an entry, or the definition itself. -/
theorem Fits.callee_known {c : Compiler} {w' : Definition} (fits : a.Fits c w)
    {id : Nat} (called : a.callee? w' = some id) : id < c.dictionary.size ∨ id = w'.entry := by
  by_cases own : a = .recurse
  · subst own
    cases called
    exact Or.inr rfl
  · exact Or.inl (fits.callee_other own called).2

/-- The words that the action copies are in `foreign`. -/
def Copies (foreign : InstrWord → Prop) : Action → Prop
  | instruction v _ => foreign v
  | primitive _ _ _ body | inline _ _ body => ∀ v ∈ body, foreign v
  | _ => True

/-- The instruction words that are inserted as they are obey `raw`. -/
def Obeys (raw : InstrWord → RegSet → Prop) : Action → Prop
  | instruction w clobbers => raw w clobbers
  | primitive _ _ clobbers body => ∀ v ∈ body, raw v clobbers
  | _ => True

theorem steady (a : Action) (b : CodeHeap) (origin : Definition) :
    Emit.Steady b origin a.emit := by
  cases a with
  | literal value => exact Emit.steady.literal value
  | setLocal name => exact Emit.setLocal_confined name
  | getLocal name => exact Emit.steady.getLocalCalled name
  | instruction w clobbers =>
    exact Emit.Confined.seq (Emit.instruction_confined w clobbers) fun _ =>
      Emit.Confined.pure trivial
  | primitive inputs outputs clobbers body => exact Emit.primitiveBody_confined _ _ _ _
  | call id callee => exact Emit.call_confined callee
  | inline id callee body => exact Emit.inlineBody_confined callee body
  | ifPart => exact Emit.ifPart_confined
  | elsePart => exact Emit.elsePart_confined
  | thenPart => exact Emit.thenPart_confined
  | exit => exact Emit.exit_confined
  | raise => exact Emit.raise_confined
  | recurse => exact Emit.recurse_confined

end Action

theorem Entry.compiled?_eq_some {e : Entry} {code : CompiledWord} :
    e.compiled? = some code ↔ e.kind = .compiled code := by
  unfold compiled?
  cases e.kind with
  | compiled code' | intrinsic function | external slot address => simp

/-- What an operation puts into a definition as it is obeys `raw`. -/
def Operation.Obeys (raw : InstrWord → RegSet → Prop) : Operation → Prop
  | .instruction w clobbers => raw w clobbers
  | .definePrimitive _ _ _ clobbers body => ∀ v ∈ body, raw v clobbers
  | _ => True

/-- The operation begins a definition or is a whole one. -/
def Operation.opensWord : Operation → Bool
  | .beginWord .. | .definePrimitive .. => true
  | _ => false

/-- An action that has succeeded, with the words that it has staged. -/
structure Deed where
  action : Action
  start : Nat
  stop : Nat

/-- The action by which an operation is carried out, where that is always the same. -/
def Operation.action? : Operation → Option Action
  | .literal value => some (.literal value)
  | .setLocal name => some (.setLocal name)
  | .getLocal name => some (.getLocal name)
  | .instruction w clobbers => some (.instruction w clobbers)
  | .ifPart => some .ifPart
  | .elsePart => some .elsePart
  | .thenPart => some .thenPart
  | .exit => some .exit
  | .raise => some .raise
  | .recurse => some .recurse
  | _ => none

/-- The deeds by which an operation was carried out. -/
inductive Carried : Event → List Deed → Prop
  | simple {op : Operation} {a : Action} {start stop : Nat} : op.action? = some a →
      (∀ w, a.callee? w = none) → Carried ⟨op, none, start, stop⟩ [⟨a, start, stop⟩]
  | recurse {id : EntryId} {start stop : Nat} :
      Carried ⟨.recurse, some id, start, stop⟩ [⟨.recurse, start, stop⟩]
  | string {text : String} {address length : Cell} {start mid stop : Nat} :
      Carried ⟨.string text, none, start, stop⟩
        [⟨.literal address, start, mid⟩, ⟨.literal length, mid, stop⟩]
  | getLocal {name : String} {start stop : Nat} :
      Carried ⟨.word name, none, start, stop⟩ [⟨.getLocal name, start, stop⟩]
  | call {op : Operation} {id : EntryId} {callee : Entry} {start stop : Nat} : op.action? = none →
      Carried ⟨op, some id, start, stop⟩ [⟨.call id callee, start, stop⟩]
  | inline {op : Operation} {id : EntryId} {callee : Entry} {body : List InstrWord}
      {start stop : Nat} : op.action? = none →
      Carried ⟨op, some id, start, stop⟩ [⟨.inline id callee body, start, stop⟩]
  | nothing {op : Operation} {start : Nat} : op.action? = none →
      Carried ⟨op, none, start, start⟩ []

/-- The actions that an operation may be carried out by, unless it says so itself. -/
def Action.isPlain : Action → Bool
  | instruction .. | primitive .. | recurse => false
  | _ => true

theorem Action.Obeys.of_plain {raw : InstrWord → RegSet → Prop} {a : Action}
    (plain : a.isPlain = true) : a.Obeys raw := by
  cases a <;> trivial

namespace Compiler

/-- The compiler that an operation leaves, whether it succeeds or fails. -/
def after (c : Compiler) (op : Operation) : Compiler := stateAfter op.run c

/-- The entry that an operation calls from the open definition `w`. -/
def callee? (c : Compiler) (w : Definition) : Operation → Option EntryId
  | .call id | .inlineCall id => some id
  | .recurse => some w.entry
  | .word name => if (w.locals.find? name).isSome then none else c.dictionary.lookup? name
  | _ => none

/-- What is remembered of an operation on the open definition `w`. -/
def event (c : Compiler) (w : Definition) (op : Operation) : Event :=
  ⟨op, c.callee? w op, c.heap.here, (c.after op).heap.here⟩

/-- `c` with its open definition as in the draft `d`. -/
def drafted (c : Compiler) (d : Draft) : Compiler :=
  { c with heap := d.heap, definition := some d.word }

/-- `c` after the action `a` has left the draft `d`. -/
def acted (c : Compiler) (a : Action) (d : Draft) : Compiler :=
  { c.drafted d with dictionary := a.record d.word c.dictionary }

/-- `c` came from `c0` by actions that `may` be done.  They have all succeeded if `strict`. -/
inductive Worked (strict : Prop) (may : Action → Prop) (c0 : Compiler) : Compiler → Prop
  | start : Worked strict may c0 c0
  | heap {c : Compiler} {h : CodeHeap} : Worked strict may c0 c → h.staged = c.heap.staged →
      (∀ n, CodeHeap.Grows n c.heap h) → Worked strict may c0 { c with heap := h }
  | act {c : Compiler} {w : Definition} {a : Action} {d : Draft} : Worked strict may c0 c →
      c.definition = some w → a.Fits c w → may a → a.emit c.settings ⟨c.heap, w⟩ = .ok () d →
      Worked strict may c0 (c.acted a d)
  | failed {c : Compiler} {w : Definition} {a : Action} {e : CompileError} {d : Draft} :
      ¬strict → Worked strict may c0 c → c.definition = some w → a.Fits c w → may a →
      a.emit c.settings ⟨c.heap, w⟩ = .error e d → Worked strict may c0 (c.drafted d)

/-- `c` came from `c0` by `deeds`, which are actions that `may` be done. -/
inductive Acted (may : Action → Prop) (c0 : Compiler) : List Deed → Compiler → Prop
  | start : Acted may c0 [] c0
  | heap {deeds : List Deed} {c : Compiler} {h : CodeHeap} : Acted may c0 deeds c →
      h.staged = c.heap.staged → (∀ n, CodeHeap.Grows n c.heap h) →
      Acted may c0 deeds { c with heap := h }
  | act {deeds : List Deed} {c : Compiler} {w : Definition} {a : Action} {d : Draft} :
      Acted may c0 deeds c → c.definition = some w → a.Fits c w → may a →
      a.emit c.settings ⟨c.heap, w⟩ = .ok () d →
      Acted may c0 (deeds ++ [⟨a, c.heap.here, d.heap.here⟩]) (c.acted a d)

variable {α β : Type} {strict : Prop} {may : Action → Prop} {c0 c c' : Compiler} {deeds : List Deed}

theorem Worked.trans (first : Worked strict may c0 c) (second : Worked strict may c c') :
    Worked strict may c0 c' := by
  induction second with
  | start => exact first
  | heap _ staged grows ih => exact ih.heap staged grows
  | act _ isOpen fits allowed done ih => exact ih.act isOpen fits allowed done
  | failed lax _ isOpen fits allowed failed ih => exact ih.failed lax isOpen fits allowed failed

theorem Acted.trans {deeds' : List Deed} (first : Acted may c0 deeds c)
    (second : Acted may c deeds' c') : Acted may c0 (deeds ++ deeds') c' := by
  induction second with
  | start => exact (List.append_nil deeds).symm ▸ first
  | heap _ staged grows ih => exact ih.heap staged grows
  | act _ isOpen fits allowed done ih =>
    rw [← List.append_assoc]
    exact ih.act isOpen fits allowed done

theorem Acted.works (acted : Acted may c0 deeds c) : Worked strict may c0 c := by
  induction acted with
  | start => exact .start
  | heap _ staged grows ih => exact ih.heap staged grows
  | act _ isOpen fits allowed done ih => exact ih.act isOpen fits allowed done

theorem Acted.worked (acted : Acted may c0 deeds c) : Worked True may c0 c := acted.works

theorem Acted.still (acted : Acted may c0 [] c) :
    c.definition = c0.definition ∧ c.dictionary = c0.dictionary := by
  generalize none : ([] : List Deed) = deeds at acted
  induction acted with
  | start => exact ⟨rfl, rfl⟩
  | heap _ _ _ ih => exact ih none
  | act => cases List.append_ne_nil_of_right_ne_nil _ (List.cons_ne_nil _ _) none.symm

/-- Actions that have all succeeded are deeds. -/
theorem Worked.acted (worked : Worked True may c0 c) : ∃ deeds, Acted may c0 deeds c := by
  induction worked with
  | start => exact ⟨[], .start⟩
  | heap _ staged grows ih =>
    obtain ⟨deeds, acted⟩ := ih
    exact ⟨deeds, acted.heap staged grows⟩
  | act _ isOpen fits allowed done ih =>
    obtain ⟨deeds, acted⟩ := ih
    exact ⟨_, acted.act isOpen fits allowed done⟩
  | failed lax => exact absurd trivial lax

/-- Without an open definition nothing is staged. -/
theorem Worked.idle (worked : Worked strict may c0 c) (idle : c0.definition = none) :
    c.definition = none ∧ c.dictionary = c0.dictionary ∧ c.heap.staged = c0.heap.staged := by
  induction worked with
  | start => exact ⟨idle, rfl, rfl⟩
  | heap _ staged _ ih => exact ⟨ih.1, ih.2.1, staged.trans ih.2.2⟩
  | act _ isOpen _ _ _ ih | failed _ _ isOpen _ _ _ ih => cases ih.1.symm.trans isOpen

/-! ## Single steps -/

theorem onHeap_ok {operation : HeapM α} {a : α} {heap : CodeHeap}
    (ok : operation c.heap = .ok a heap) : onHeap operation c = .ok a { c with heap } := by
  simp only [onHeap, ok]

theorem onHeap_error {operation : HeapM α} {e : MemoryError} {heap : CodeHeap}
    (error : operation c.heap = .error e heap) :
    onHeap operation c = .error (.memory e) { c with heap } := by
  simp only [onHeap, error]

theorem emitting_none {action : Emit α} (idle : c.definition = none) :
    emitting action c = .error .noActiveDefinition c := by
  obtain ⟨settings, heap, dictionary, stackCells, definition, thunk, redefinitions⟩ := c
  obtain rfl : definition = none := idle
  rfl

theorem emitting_some {action : Emit α} (isOpen : c.definition = some w) :
    emitting action c =
      match action c.settings ⟨c.heap, w⟩ with
      | .ok a d => .ok a { c with heap := d.heap, definition := some d.word }
      | .error e d => .error e { c with heap := d.heap, definition := some d.word } := by
  obtain ⟨settings, heap, dictionary, stackCells, definition, thunk, redefinitions⟩ := c
  obtain rfl : definition = some w := isOpen
  simp only [emitting]
  cases action settings ⟨heap, w⟩ <;> rfl

theorem emitting_ok {action : Emit α} {a : α} (ok : emitting action c = .ok a c') :
    ∃ w d, c.definition = some w ∧ action c.settings ⟨c.heap, w⟩ = .ok a d ∧
      c' = { c with heap := d.heap, definition := some d.word } := by
  cases isOpen : c.definition with
  | none =>
    rw [emitting_none isOpen] at ok
    cases ok
  | some w =>
    rw [emitting_some isOpen] at ok
    cases outcome : action c.settings ⟨c.heap, w⟩ with
    | ok a d =>
      rw [outcome] at ok
      cases ok
      exact ⟨w, d, rfl, outcome, rfl⟩
    | error e d =>
      rw [outcome] at ok
      cases ok

variable {w : Definition} {id : EntryId} {e : Entry} {name : String}

theorem active_none (idle : c.definition = none) : active c = .error .noActiveDefinition c := by
  simp only [active, bind_get, idle]
  rfl

theorem active_some (isOpen : c.definition = some w) : active c = .ok w c := by
  simp only [active, bind_get, isOpen]
  rfl

theorem active_ok (ok : active c = .ok w c') : c' = c ∧ c.definition = some w := by
  cases isOpen : c.definition with
  | none => cases (active_none isOpen).symm.trans ok
  | some w =>
    cases (active_some isOpen).symm.trans ok
    exact ⟨rfl, rfl⟩

theorem entry_none (missing : c.dictionary.get? id = none) :
    entry id c = .error (.unknownWord id.describe) c := by
  simp only [entry, bind_get, missing]
  rfl

theorem entry_some (found : c.dictionary.get? id = some e) : entry id c = .ok e c := by
  simp only [entry, bind_get, found]
  rfl

theorem entry_ok (ok : entry id c = .ok e c') : c' = c ∧ c.dictionary.get? id = some e := by
  cases found : c.dictionary.get? id with
  | none => cases (entry_none found).symm.trans ok
  | some e =>
    cases (entry_some found).symm.trans ok
    exact ⟨rfl, rfl⟩

theorem find_none (missing : c.dictionary.lookup? name = none) :
    find name c = .error (.unknownWord name) c := by
  simp only [find, bind_get, missing]
  rfl

theorem find_some (found : c.dictionary.lookup? name = some id) : find name c = .ok id c := by
  simp only [find, bind_get, found]
  rfl

theorem find_ok (ok : find name c = .ok id c') : c' = c ∧ c.dictionary.lookup? name = some id := by
  cases found : c.dictionary.lookup? name with
  | none => cases (find_none found).symm.trans ok
  | some id =>
    cases (find_some found).symm.trans ok
    exact ⟨rfl, rfl⟩

theorem onHeap_inv {operation : HeapM α} {a : α} (ok : onHeap operation c = .ok a c') :
    ∃ heap, operation c.heap = .ok a heap ∧ c' = { c with heap } := by
  cases outcome : operation c.heap with
  | error e heap =>
    rw [onHeap_error outcome] at ok
    cases ok
  | ok a heap =>
    rw [onHeap_ok outcome] at ok
    cases ok
    exact ⟨heap, rfl, rfl⟩

/-- Preparing a callee gives its entry, which is not that of the open definition, and may publish
its code. -/
theorem prepareCallee_ok {e : Entry} (ok : prepareCallee id c = .ok e c') :
    ∃ w heap, c.definition = some w ∧ id ≠ w.entry ∧ c.dictionary.get? id = some e ∧
      heap.staged = c.heap.staged ∧ (∀ n, CodeHeap.Grows n c.heap heap) ∧ c' = { c with heap } := by
  obtain ⟨w, c1, got, rest⟩ := bind_eq_ok.1 ok
  obtain ⟨rfl, isOpen⟩ := active_ok got
  dsimp only at rest
  split at rest
  · cases rest
  · next other =>
    obtain ⟨e1, c2, known, body⟩ := bind_eq_ok.1 rest
    obtain ⟨rfl, found⟩ := entry_ok known
    cases compiled : e1.compiled? with
    | none =>
      rw [compiled] at body
      cases body
      exact ⟨w, _, isOpen, other, found, rfl, fun _ => .refl _, rfl⟩
    | some code =>
      rw [compiled] at body
      obtain ⟨_, c3, published, result⟩ := bind_eq_ok.1 body
      obtain ⟨heap, done, rfl⟩ := onHeap_inv published
      cases result
      have same := (CodeHeap.ensurePublished_same code.layout.stop c2.heap).1
      rw [stateAfter_of_ok done] at same
      exact ⟨w, heap, isOpen, other, found, same,
        fun _ => (CodeHeap.ensurePublished_leaves code.layout.stop).of_ok done, rfl⟩

/-! ## Operations are work -/

/-- An outcome of what was begun in `c`: a success by deeds in `D`, between the positions where they
begin and end, or a failure after some work. -/
def Left (may : Action → Prop) (D : Nat → List Deed → Nat → Prop) (c : Compiler) :
    EStateM.Result CompileError Compiler α → Prop
  | .ok _ c' => ∃ deeds, Acted may c deeds c' ∧ D c.heap.here deeds c'.heap.here
  | .error _ c' => Worked False may c c'

/-- What `m` does to the open definition are deeds in `D`, unless it fails. -/
def Does (may : Action → Prop) (m : CompileM α) (D : Nat → List Deed → Nat → Prop) : Prop :=
  ∀ c, Left may D c (m c)

/-- Nothing is done. -/
def Still (start : Nat) (deeds : List Deed) (stop : Nat) : Prop := deeds = [] ∧ stop = start

/-- One action is done. -/
def Alone (a : Action) (start : Nat) (deeds : List Deed) (stop : Nat) : Prop :=
  deeds = [⟨a, start, stop⟩]

theorem Left.of_acted {D D' : Nat → List Deed → Nat → Prop}
    {r : EStateM.Result CompileError Compiler α} (acted : Acted may c deeds c')
    (left : Left may D' c' r)
    (both : ∀ deeds' stop, D' c'.heap.here deeds' stop → D c.heap.here (deeds ++ deeds') stop) :
    Left may D c r := by
  cases r with
  | ok a c'' =>
    obtain ⟨deeds', acted', shape⟩ := left
    exact ⟨_, acted.trans acted', both _ _ shape⟩
  | error e c'' => exact acted.works.trans left

namespace Does

variable {m : CompileM α} {f : α → CompileM β} {D D1 D2 : Nat → List Deed → Nat → Prop}

theorem bind (first : Does may m D1) (second : ∀ a, Does may (f a) D2)
    (both : ∀ start deeds mid deeds' stop, D1 start deeds mid → D2 mid deeds' stop →
      D start (deeds ++ deeds') stop) : Does may (m >>= f) D := by
  intro c
  have left := first c
  cases outcome : m c with
  | error e c1 =>
    rw [outcome] at left
    rw [bind_of_error outcome]
    exact left
  | ok a c1 =>
    rw [outcome] at left
    obtain ⟨deeds, acted, shape⟩ := left
    rw [bind_of_ok outcome]
    exact .of_acted acted (second a c1) fun _ _ => both _ _ _ _ _ shape

theorem after (first : Does may m Still) (second : ∀ a, Does may (f a) D) : Does may (m >>= f) D :=
  bind first second fun _ _ _ _ _ ⟨nothing, same⟩ shape => by
    subst nothing same
    exact shape

theorem imp (does : Does may m D1) (weaker : ∀ start deeds stop, D1 start deeds stop →
    D start deeds stop) : Does may m D := by
  intro c
  have left := does c
  cases outcome : m c with
  | error e c' =>
    rw [outcome] at left
    exact left
  | ok a c' =>
    rw [outcome] at left
    obtain ⟨deeds, acted, shape⟩ := left
    exact ⟨deeds, acted, weaker _ _ _ shape⟩

theorem pure (a : α) : Does may (pure a : CompileM α) Still := fun _ => ⟨[], .start, rfl, rfl⟩

theorem throw (e : CompileError) : Does may (throw e : CompileM α) D := fun _ => .start

theorem get : Does may get Still := fun _ => ⟨[], .start, rfl, rfl⟩

theorem ignore (does : Does may m D) : Does may (do let _ ← m : CompileM Unit) D :=
  bind does pure fun _ _ _ _ _ shape ⟨nothing, same⟩ => by
    subst nothing same
    rwa [List.append_nil]

theorem active : Does may active Still := by
  intro c
  rw [Compiler.active, bind_get]
  cases c.definition with
  | none => exact .start
  | some w => exact ⟨[], .start, rfl, rfl⟩

theorem find (name : String) : Does may (find name) Still := by
  intro c
  rw [Compiler.find, bind_get]
  cases c.dictionary.lookup? name with
  | none => exact .start
  | some id => exact ⟨[], .start, rfl, rfl⟩

theorem entry (id : EntryId) : Does may (entry id) Still := by
  intro c
  rw [Compiler.entry, bind_get]
  cases c.dictionary.get? id with
  | none => exact .start
  | some e => exact ⟨[], .start, rfl, rfl⟩

/-- A heap operation that stages nothing. -/
theorem onHeap {operation : HeapM α} (grows : ∀ n, Leaves (CodeHeap.Grows n) operation)
    (same : ∀ h, (stateAfter operation h).staged = h.staged) :
    Does may (onHeap operation) Still := by
  intro c
  have staged := same c.heap
  cases outcome : operation c.heap with
  | ok a heap =>
    rw [stateAfter_of_ok outcome] at staged
    rw [onHeap_ok outcome]
    exact ⟨[], Acted.start.heap staged fun n => (grows n).of_ok outcome, rfl,
      congrArg Array.size staged⟩
  | error e heap =>
    rw [stateAfter_of_error outcome] at staged
    rw [onHeap_error outcome]
    exact Worked.start.heap staged fun n => (grows n).of_error outcome

theorem publish (stop : Nat) : Does may (Compiler.onHeap (CodeHeap.ensurePublished stop)) Still :=
  .onHeap (fun _ => CodeHeap.ensurePublished_leaves stop) fun h =>
    (CodeHeap.ensurePublished_same stop h).1

theorem allocateCells (cells : Nat) : Does may (allocateCells cells) Still :=
  .onHeap (fun _ => CodeHeap.allocateData_leaves _ _) (CodeHeap.allocateData_staged _ _)

theorem refuse (refusals : List Nat) : Does may (Operation.refuse refusals).run Still :=
  fun c => ⟨[], Acted.start.heap rfl fun _ => CodeHeap.Grows.of_memory c.heap rfl, rfl, rfl⟩

/-- Looking up an address publishes the code at most. -/
theorem entryAddress (id : EntryId) : Does may (entryAddress id) Still := by
  refine .after (.entry id) fun e => ?_
  split
  · dsimp only
    split
    · exact .after (.publish _) fun _ => .after .get fun _ => .pure _
    · exact .throw _
  · exact .pure _
  · exact .pure _

theorem epilogueAddress (id : EntryId) : Does may (epilogueAddress id) Still := by
  refine .after (.entry id) fun e => ?_
  split
  · dsimp only
    split
    · exact .after (.publish _) fun _ => .after .get fun _ => .pure _
    · exact .throw _
  · exact .throw _

theorem ofExcept (r : Except CompileError α) : Does may (MonadExcept.ofExcept r) Still := by
  cases r with
  | ok a => exact .pure a
  | error e => exact .throw e

theorem enterWord (id : EntryId) (args : List Cell) : Does may (enterWord id args) Still :=
  .after (.entryAddress id) fun _ => .after (.entry id) fun _ => .after .get fun _ =>
    .after (.ofExcept _) fun _ =>
      .after (.onHeap (fun _ => CodeHeap.execute_leaves) CodeHeap.execute_staged) fun _ =>
        .ofExcept _

/-- What follows the preparation of a callee may rely on its being an older entry. -/
theorem prepareCallee {id : EntryId} {f : Entry → CompileM β}
    (next : ∀ c w e, c.definition = some w → id ≠ w.entry → c.dictionary.get? id = some e →
      Left may D c (f e c)) : Does may (prepareCallee id >>= f) D := by
  have prepared : Does may (Compiler.prepareCallee id) Still := by
    refine .after .active fun w => ?_
    dsimp only
    split
    · exact .throw _
    · refine .after (.entry id) fun e => ?_
      split
      · exact .after (.publish _) fun _ => .pure _
      · exact .pure _
  intro c
  have left := prepared c
  cases outcome : Compiler.prepareCallee id c with
  | error e c' =>
    rw [outcome] at left
    rw [bind_of_error outcome]
    exact left
  | ok e c' =>
    rw [outcome] at left
    rw [bind_of_ok outcome]
    obtain ⟨w, heap, isOpen, other, found, -, -, rfl⟩ := prepareCallee_ok outcome
    obtain ⟨_, acted, rfl, here⟩ := left
    refine .of_acted acted (next _ w e isOpen other found) fun _ _ shape => ?_
    rwa [← here]

/-- One action, whatever comes of it. -/
theorem action (isOpen : c.definition = some w) (fits : a.Fits c w)
    (allowed : may a) :
    (∃ d, emitting a.emit c = .ok () (c.drafted d) ∧
        Acted may c [⟨a, c.heap.here, d.heap.here⟩] (c.acted a d)) ∨
      ∃ e d, emitting a.emit c = .error e (c.drafted d) ∧ Worked False may c (c.drafted d) := by
  have emitted : emitting a.emit c = _ := emitting_some isOpen
  cases outcome : a.emit c.settings ⟨c.heap, w⟩ with
  | ok _ d =>
    rw [outcome] at emitted
    exact Or.inl ⟨d, emitted, Acted.start.act isOpen fits allowed outcome⟩
  | error e d =>
    rw [outcome] at emitted
    exact Or.inr ⟨e, d, emitted, Worked.start.failed id isOpen fits allowed outcome⟩

/-- An action and the call that it records. -/
theorem recorded {id : EntryId} (calls : ∀ w, a.callee? w = some id)
    (isOpen : c.definition = some w) (fits : a.Fits c w) (allowed : may a) :
    Left may (Alone a) c ((do Compiler.emitting a.emit; recordCall id : CompileM Unit) c) := by
  rcases action isOpen fits allowed with ⟨d, ok, done⟩ | ⟨e, d, error, worked⟩
  · rw [bind_of_ok ok]
    rw [acted, Action.record, calls] at done
    exact ⟨_, done, rfl⟩
  · rw [bind_of_error error]
    exact worked

/-- An action that records no call. -/
theorem emitting (plain : a.isPlain = true) (silent : ∀ w, a.callee? w = none)
    (allowed : may a) : Does may (emitting a.emit) (Alone a) := by
  intro c
  cases isOpen : c.definition with
  | none =>
    rw [emitting_none isOpen]
    exact .start
  | some w =>
    have fits : a.Fits c w := by
      have silent := silent w
      cases a <;> trivial
    rcases action isOpen fits allowed with ⟨d, ok, done⟩ | ⟨e, d, error, worked⟩
    · rw [ok]
      rw [acted, Action.record, silent] at done
      exact ⟨_, done, rfl⟩
    · rw [error]
      exact worked

theorem instruction {v : InstrWord} {clobbers : RegSet} (allowed : may (.instruction v clobbers)) :
    Does may (instruction v clobbers) (Alone (.instruction v clobbers)) := by
  intro c
  cases isOpen : c.definition with
  | none =>
    rw [Compiler.instruction, emitting_none isOpen]
    exact .start
  | some w =>
    rw [Compiler.instruction, emitting_some isOpen]
    cases outcome : Emit.instruction v clobbers c.settings ⟨c.heap, w⟩ with
    | ok n d =>
      exact ⟨_, Acted.start.act (a := .instruction v clobbers) isOpen trivial allowed
        (bind_of_ok outcome _), rfl⟩
    | error e d =>
      exact Worked.start.failed (a := .instruction v clobbers) id isOpen trivial allowed
        (bind_of_error outcome _)

theorem recurse (allowed : may .recurse) : Does may recurse (Alone .recurse) := by
  intro c
  cases isOpen : c.definition with
  | none =>
    have failed : Compiler.recurse c = .error .noActiveDefinition c :=
      bind_of_error (emitting_none isOpen) _
    rw [failed]
    exact .start
  | some w =>
    rcases action (a := .recurse) isOpen trivial allowed with ⟨d, ok, done⟩ | ⟨e, d, error, worked⟩
    · have recursed : Compiler.recurse c = .ok () (c.acted .recurse d) := bind_of_ok ok _
      rw [recursed]
      exact ⟨_, done, rfl⟩
    · have failed : Compiler.recurse c = .error e (c.drafted d) := bind_of_error error _
      rw [failed]
      exact worked

section

variable (plain : ∀ a : Action, a.isPlain = true → may a)

include plain

theorem inlineCall (id : EntryId) : Does may (inlineCall id) fun start deeds stop =>
    ∃ callee body, Alone (.inline id callee body) start deeds stop := by
  refine .prepareCallee fun c w callee isOpen other found => ?_
  cases compiled : callee.compiled? with
  | none => exact .start
  | some code =>
    dsimp only
    cases refusal : code.inlineRefusal? callee.flags.throws with
    | some why => exact .start
    | none =>
      have left := recorded (a := .inline id callee _) (fun _ => rfl) isOpen
        ⟨other, found, code, Entry.compiled?_eq_some.1 compiled, refusal, rfl⟩ (plain _ rfl)
      exact .of_acted .start left fun _ _ shape => ⟨callee, _, shape⟩

theorem call (id : EntryId) : Does may (call id) fun start deeds stop =>
    ∃ callee, Alone (.call id callee) start deeds stop ∨
      ∃ body, Alone (.inline id callee body) start deeds stop := by
  refine .prepareCallee fun c w callee isOpen other found => ?_
  rw [bind_get]
  split
  · exact .of_acted .start (inlineCall plain id c) fun _ _ ⟨callee, body, shape⟩ =>
      ⟨callee, Or.inr ⟨body, shape⟩⟩
  · have left := recorded (a := .call id callee) (fun _ => rfl) isOpen ⟨other, found⟩ (plain _ rfl)
    exact .of_acted .start left fun _ _ shape => ⟨callee, Or.inl shape⟩

theorem string (text : String) : Does may (string text) fun start deeds stop =>
    ∃ address length mid, deeds = [⟨.literal address, start, mid⟩,
      ⟨.literal length, mid, stop⟩] := by
  have literal (value : Cell) : Does may (literal value) (Alone (.literal value)) :=
    .emitting rfl (fun _ => rfl) (plain _ rfl)
  refine .after .active fun _ => .after (.onHeap (fun _ => CodeHeap.addConstant_leaves _)
    (CodeHeap.addConstant_staged _)) fun _ => .bind (literal _) (fun _ => literal _) ?_
  rintro start _ mid _ stop rfl rfl
  exact ⟨_, _, mid, rfl⟩

/-- Every operation on the open definition is work.  What a name stands for is known only to the
compiler, that of the other operations is `Carried`. -/
theorem inBody {op : Operation} (inBody : op.inBody = true)
    (own : ∀ a, op.action? = some a → may a) :
    Does may op.run fun start deeds stop => (∀ name, op ≠ .word name) →
      ∀ (c : Compiler) w, Carried ⟨op, c.callee? w op, start, stop⟩ deeds := by
  have simple : ∀ a : Action, op.action? = some a → (∀ (c : Compiler) w, c.callee? w op = none) →
      a.isPlain = true → (∀ w, a.callee? w = none) →
      Does may (Compiler.emitting a.emit) fun start deeds stop => (∀ name, op ≠ .word name) →
        ∀ (c : Compiler) w, Carried ⟨op, c.callee? w op, start, stop⟩ deeds := by
    intro a same quiet isPlain silent
    refine (emitting isPlain silent (plain a isPlain)).imp ?_
    rintro start _ stop rfl - c w
    rw [quiet]
    exact .simple same silent
  have nothing : ∀ {m : CompileM Unit}, Does may m Still → op.action? = none →
      (∀ (c : Compiler) w, c.callee? w op = none) →
      Does may m fun start deeds stop => (∀ name, op ≠ .word name) →
        ∀ (c : Compiler) w, Carried ⟨op, c.callee? w op, start, stop⟩ deeds := by
    intro m still other quiet
    refine still.imp ?_
    rintro start _ _ ⟨rfl, rfl⟩ - c w
    rw [quiet]
    exact .nothing other
  cases op with
  | literal value => exact simple (.literal value) rfl (fun _ _ => rfl) rfl fun _ => rfl
  | string text =>
    refine (string plain text).imp ?_
    rintro start _ stop ⟨address, length, mid, rfl⟩ - c w
    exact .string
  | setLocal name => exact simple (.setLocal name) rfl (fun _ _ => rfl) rfl fun _ => rfl
  | getLocal name => exact simple (.getLocal name) rfl (fun _ _ => rfl) rfl fun _ => rfl
  | word name =>
    refine .after .active fun w => ?_
    split
    · exact (emitting (a := .getLocal name) rfl (fun _ => rfl) (plain _ rfl)).imp
        fun _ _ _ _ other => absurd rfl (other name)
    · exact .after (.find name) fun id =>
        (call plain id).imp fun _ _ _ _ other => absurd rfl (other name)
  | instruction v clobbers =>
    refine (ignore (instruction (own _ rfl))).imp ?_
    rintro start _ stop rfl - c w
    exact .simple rfl fun _ => rfl
  | call id =>
    refine (call plain id).imp ?_
    rintro start _ stop ⟨callee, rfl | ⟨body, rfl⟩⟩ - c w
    · exact .call rfl
    · exact .inline rfl
  | inlineCall id =>
    refine (inlineCall plain id).imp ?_
    rintro start _ stop ⟨callee, body, rfl⟩ - c w
    exact .inline rfl
  | ifPart => exact simple .ifPart rfl (fun _ _ => rfl) rfl fun _ => rfl
  | elsePart => exact simple .elsePart rfl (fun _ _ => rfl) rfl fun _ => rfl
  | thenPart => exact simple .thenPart rfl (fun _ _ => rfl) rfl fun _ => rfl
  | exit => exact simple .exit rfl (fun _ _ => rfl) rfl fun _ => rfl
  | raise => exact simple .raise rfl (fun _ _ => rfl) rfl fun _ => rfl
  | recurse =>
    refine (recurse (own _ rfl)).imp ?_
    rintro start _ stop rfl - c w
    exact .recurse
  | allocateCells cells => exact nothing (.ignore (.allocateCells cells)) rfl fun _ _ => rfl
  | entryAddress id => exact nothing (.ignore (.entryAddress id)) rfl fun _ _ => rfl
  | epilogueAddress id => exact nothing (.ignore (.epilogueAddress id)) rfl fun _ _ => rfl
  | refuse refusals => exact nothing (.refuse refusals) rfl fun _ _ => rfl
  | beginWord | endWord | abandonWord | definePrimitive | bindExternal | resolveExternal | invoke =>
    cases inBody

end

/-- What an operation puts into a definition as it is obeys what it obeys itself. -/
theorem operation {raw : InstrWord → RegSet → Prop} {op : Operation} (isInBody : op.inBody = true)
    (obeys : op.Obeys raw) :
    Does (·.Obeys raw) op.run fun start deeds stop => (∀ name, op ≠ .word name) →
      ∀ (c : Compiler) w, Carried ⟨op, c.callee? w op, start, stop⟩ deeds := by
  refine inBody (fun _ => Action.Obeys.of_plain) isInBody fun a same => ?_
  cases op <;> cases same <;> exact obeys

theorem of_ok {a : α} (does : Does may m D) (ok : m c = .ok a c') :
    ∃ deeds, Acted may c deeds c' ∧ D c.heap.here deeds c'.heap.here := by
  have left := does c
  rwa [ok] at left

/-- What is done adds to work that was done before, and must succeed if that had to. -/
theorem worked (does : Does may m D) (before : Worked strict may c0 c)
    (succeeds : strict → ∃ a c', m c = .ok a c') : Worked strict may c0 (stateAfter m c) := by
  have left := does c
  cases outcome : m c with
  | ok a c' =>
    obtain ⟨deeds, acted, -⟩ := does.of_ok outcome
    rw [stateAfter_of_ok outcome]
    exact before.trans acted.works
  | error e c' =>
    rw [outcome] at left
    rw [stateAfter_of_error outcome]
    have lax : strict = False := eq_false fun all => by
      obtain ⟨a, c1, ok⟩ := succeeds all
      cases ok.symm.trans outcome
    subst lax
    exact before.trans left

end Does

end Compiler

end ForthJit
