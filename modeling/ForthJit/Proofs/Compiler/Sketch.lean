import ForthJit.Proofs.Compiler.Conduct
import ForthJit.Proofs.Dictionary.Sketch

/-!
# Definitions without their code

What a definition may do next depends on the number of pending values, the open branches and the
names of its locals, not on the instructions emitted so far.  `Definition.sketch` blanks what is
only about instructions: positions, registers and pending patches.

Two emissions agree (`Emit.Agrees`) if from definitions with the same sketch they give the same
error or go on with the same sketch, unless one of them fails for a reason that lies in its code.
An emission is silent (`Emit.Silent`) if it leaves the sketch alone and can fail only for such a
reason; any two silent emissions agree, however many instructions each of them emits.
-/

namespace ForthJit

/-- Whether an error is about the code itself: no room for it, an operand out of range, or a
placeholder that is left. -/
def CompileError.aboutCode : CompileError → Bool
  | .memory _ | .encode _ | .unpatched .. => true
  | _ => false

section Parallel

variable {σ α β γ δ : Type}

/-- Two outcomes that agree, unless one of them is an error about code: results related by `Q` or
the same error, in states related by `R`. -/
inductive Parallel (R : σ → σ → Prop) (Q : α → β → Prop) :
    EStateM.Result CompileError σ α → EStateM.Result CompileError σ β → Prop
  | left {e : CompileError} {s : σ} {r : EStateM.Result CompileError σ β} :
    e.aboutCode = true → Parallel R Q (.error e s) r
  | right {e : CompileError} {t : σ} {r : EStateM.Result CompileError σ α} :
    e.aboutCode = true → Parallel R Q r (.error e t)
  | ok {a : α} {b : β} {s t : σ} : Q a b → R s t → Parallel R Q (.ok a s) (.ok b t)
  | error {e : CompileError} {s t : σ} : R s t → Parallel R Q (.error e s) (.error e t)

namespace Parallel

variable {R S : σ → σ → Prop} {Q : α → β → Prop} {P : γ → δ → Prop} {s t : σ}
  {m1 : EStateM CompileError σ α} {m2 : EStateM CompileError σ β}

theorem bind {f : α → EStateM CompileError σ γ} {g : β → EStateM CompileError σ δ}
    (first : Parallel R Q (m1 s) (m2 t))
    (second : ∀ a b s' t', m1 s = .ok a s' → m2 t = .ok b t' → Q a b → R s' t' →
      Parallel R P (f a s') (g b t')) :
    Parallel R P ((m1 >>= f) s) ((m2 >>= g) t) := by
  cases outcome1 : m1 s with
  | error e s' =>
    rw [outcome1] at first
    rw [bind_of_error outcome1]
    cases outcome2 : m2 t with
    | error e' t' =>
      rw [outcome2] at first
      rw [bind_of_error outcome2]
      cases first with
      | left code => exact .left code
      | right code => exact .right code
      | error states => exact .error states
    | ok b t' =>
      rw [outcome2] at first
      cases first with
      | left code => exact .left code
  | ok a s' =>
    rw [outcome1] at first
    rw [bind_of_ok outcome1]
    cases outcome2 : m2 t with
    | error e' t' =>
      rw [outcome2] at first
      rw [bind_of_error outcome2]
      cases first with
      | right code => exact .right code
    | ok b t' =>
      rw [outcome2] at first
      rw [bind_of_ok outcome2]
      cases first with
      | ok results states => exact second a b s' t' outcome1 outcome2 results states

/-- A failure that is cleaned up and passed on. -/
theorem rethrow {f1 f2 : σ → σ} (parallel : Parallel R Q (m1 s) (m2 t))
    (cleaned : ∀ s t, R s t → R (f1 s) (f2 t)) :
    Parallel R Q
      ((tryCatch m1 fun e => do modify f1; throw e : EStateM CompileError σ α) s)
      ((tryCatch m2 fun e => do modify f2; throw e : EStateM CompileError σ β) t) := by
  rw [tryCatch_eq, tryCatch_eq]
  generalize m1 s = r1 at parallel
  generalize m2 t = r2 at parallel
  cases parallel with
  | left code => exact .left code
  | right code => exact .right code
  | ok results states => exact .ok results states
  | error states => exact .error (cleaned _ _ states)

end Parallel

/-- From states related by `R`, two operations have outcomes that agree. -/
def Alongside (R : σ → σ → Prop) (Q : α → β → Prop) (m1 : EStateM CompileError σ α)
    (m2 : EStateM CompileError σ β) : Prop :=
  ∀ s t, R s t → Parallel R Q (m1 s) (m2 t)

namespace Alongside

variable {R : σ → σ → Prop} {Q : α → β → Prop} {P : γ → δ → Prop}
  {m1 : EStateM CompileError σ α} {m2 : EStateM CompileError σ β}

theorem bind {f : α → EStateM CompileError σ γ} {g : β → EStateM CompileError σ δ}
    (first : Alongside R Q m1 m2) (second : ∀ a b, Q a b → Alongside R P (f a) (g b)) :
    Alongside R P (m1 >>= f) (m2 >>= g) :=
  fun s t related => (first s t related).bind fun a b s' t' _ _ results states =>
    second a b results s' t' states

theorem pure {a : α} {b : β} (results : Q a b) :
    Alongside R Q (pure a : EStateM CompileError σ α) (pure b : EStateM CompileError σ β) :=
  fun _ _ related => .ok results related

theorem throw (e : CompileError) :
    Alongside R Q (throw e : EStateM CompileError σ α) (throw e : EStateM CompileError σ β) :=
  fun _ _ related => .error related

theorem modify {f g : σ → σ} (moves : ∀ s t, R s t → R (f s) (g t)) :
    Alongside R (fun _ _ => True) (modify f : EStateM CompileError σ PUnit)
      (modify g : EStateM CompileError σ PUnit) :=
  fun s t related => .ok trivial (moves s t related)

theorem get : Alongside R R (get : EStateM CompileError σ σ) get :=
  fun _ _ related => .ok related related

end Alongside

end Parallel

/-! ## Sketches -/

/-- The name of a local, and whether it has a value. -/
def Local.sketch (l : Local) : Local :=
  { name := l.name, state := if l.state = .uninitialized then .uninitialized else .stable }

namespace Local

variable {l l' : Local}

theorem unset_iff (same : l'.sketch = l.sketch) :
    l'.state = .uninitialized ↔ l.state = .uninitialized := by
  have states : (if l'.state = .uninitialized then LocalState.uninitialized else .stable) =
      if l.state = .uninitialized then LocalState.uninitialized else .stable :=
    congrArg Local.state same
  constructor
  · intro unset
    by_contra set
    rw [if_pos unset, if_neg set] at states
    cases states
  · intro unset
    by_contra set
    rw [if_neg set, if_pos unset] at states
    cases states

theorem access?_unset (target : Reg) (unset : l.state = .uninitialized) :
    l.access? target = none := by
  simp [access?, unset]

/-- A local that has a value can be read. -/
theorem access?_set (target : Reg) (set : l.state ≠ .uninitialized) :
    ∃ access, l.access? target = some access := by
  unfold access?
  split
  · next _ unset => exact absurd unset set
  · exact ⟨_, rfl⟩
  · exact ⟨_, rfl⟩

end Local

/-- An open branch without its position and its register. -/
def ControlFrame.sketch : ControlFrame → ControlFrame
  | ifPart _ _ depth => ifPart 0 .xzr depth
  | elsePart _ depth trueDepth => elsePart 0 depth trueDepth

/-- A definition without its code. -/
def Definition.sketch (w : Definition) : Definition :=
  { entry := w.entry, name := w.name, signature := w.signature, start := 0
    snapshot := ⟨w.snapshot.entries, ⟨0, 0, w.snapshot.heap.data, 0⟩⟩
    locals := w.locals.map Local.sketch, depth := w.depth
    control := w.control.map ControlFrame.sketch, unreachable := w.unreachable
    raises := w.raises }

namespace Definition

variable {w v : Definition}

section

variable (same : w.sketch = v.sketch)

include same

theorem sketch_entry : w.entry = v.entry :=
  (congrArg Definition.entry same :)

theorem sketch_name : w.name = v.name :=
  (congrArg Definition.name same :)

theorem sketch_signature : w.signature = v.signature :=
  (congrArg Definition.signature same :)

theorem sketch_locals :
    w.locals.map Local.sketch = v.locals.map Local.sketch :=
  (congrArg Definition.locals same :)

theorem sketch_depth : w.depth = v.depth :=
  (congrArg Definition.depth same :)

theorem sketch_unreachable : w.unreachable = v.unreachable :=
  (congrArg Definition.unreachable same :)

theorem sketch_raises : w.raises = v.raises :=
  (congrArg Definition.raises same :)

/-- The innermost branches are of one kind. -/
theorem sketch_control :
    (w.control = [] ∧ v.control = []) ∨
      (∃ b r b' r' depth outer outer', w.control = .ifPart b r depth :: outer ∧
        v.control = .ifPart b' r' depth :: outer' ∧
        outer.map ControlFrame.sketch = outer'.map ControlFrame.sketch) ∨
      ∃ k k' depth trueDepth outer outer', w.control = .elsePart k depth trueDepth :: outer ∧
        v.control = .elsePart k' depth trueDepth :: outer' ∧
        outer.map ControlFrame.sketch = outer'.map ControlFrame.sketch := by
  have frames : w.control.map ControlFrame.sketch = v.control.map ControlFrame.sketch :=
    (congrArg Definition.control same :)
  cases left : w.control with
  | nil =>
    rw [left, List.map_nil, eq_comm, List.map_eq_nil_iff] at frames
    exact Or.inl ⟨rfl, frames⟩
  | cons frame outer =>
    rw [left, List.map_cons, eq_comm] at frames
    obtain ⟨frame', outer', right, kind, rest⟩ := List.map_eq_cons_iff.1 frames
    right
    cases frame with
    | ifPart b r depth =>
      cases frame' with
      | ifPart b' r' depth' =>
        cases kind
        exact Or.inl ⟨b, r, b', r', _, outer, outer', rfl, right, rest.symm⟩
      | elsePart => cases kind
    | elsePart k depth trueDepth =>
      cases frame' with
      | ifPart => cases kind
      | elsePart k' depth' trueDepth' =>
        cases kind
        exact Or.inr ⟨k, k', _, _, outer, outer', rfl, right, rest.symm⟩

end

end Definition

/-- How much data is allocated, and which functions can be found by name. -/
def CodeHeap.cursor (h : CodeHeap) : Nat × (String → Bool) :=
  (h.data.used, fun name => (h.memory.platform.resolve? name).isSome)

/-- Drafts that differ in nothing but their code. -/
structure Draft.Alike (d1 d2 : Draft) : Prop where
  word : d1.word.sketch = d2.word.sketch
  cursor : d1.heap.cursor = d2.heap.cursor

namespace Draft.Alike

theorem refl (d : Draft) : d.Alike d := ⟨rfl, rfl⟩

theorem symm {d1 d2 : Draft} (alike : d1.Alike d2) : d2.Alike d1 :=
  ⟨alike.word.symm, alike.cursor.symm⟩

theorem trans {d1 d2 d3 : Draft} (first : d1.Alike d2) (second : d2.Alike d3) : d1.Alike d3 :=
  ⟨first.word.trans second.word, first.cursor.trans second.cursor⟩

end Draft.Alike

namespace Locals

theorem sketch_spill (l : Local) (index : Nat) (source : Reg) (unstable : l.state = .unstable) :
    (l.spill index source).sketch = l.sketch := by
  simp [Local.sketch, Local.spill, unstable]

/-- Giving registers up leaves the names and which locals have values. -/
theorem sketch_clobber (regs : RegSet) (position? : Nat → Option Nat) (count : Nat) (ls : Locals) :
    (clobber regs position? count ls).locals.map Local.sketch = ls.map Local.sketch := by
  fun_induction clobber regs position? count ls with
  | case1 => rfl
  | case2 count l rest _ s ih => exact congrArg (l.sketch :: ·) ih
  | case3 => rfl
  | case4 count l rest reg unstable _ index placed s ih =>
    rw [List.map_cons, List.map_cons, ih, sketch_spill l index reg unstable]
  | case5 count l rest reg _ _ s ih => exact congrArg (l.sketch :: ·) ih

theorem find?_sketch (ls : Locals) (name : String) :
    find? (ls.map Local.sketch) name = find? ls name := by
  rw [find?, find?, List.findIdx?_map]
  rfl

theorem declare_sketch (ls : Locals) (name : String) :
    declare (ls.map Local.sketch) name = ((ls.declare name).1,
      (ls.declare name).2.map Local.sketch) := by
  unfold declare
  rw [find?_sketch]
  cases find? ls name with
  | none => simp [Local.sketch]
  | some id => rfl

/-- A change of a local that its sketch shows. -/
theorem modify_sketch {f g : Local → Local} (commutes : ∀ l, (f l).sketch = g l.sketch)
    (ls : Locals) (id : Nat) :
    (ls.modify id f).map Local.sketch = (ls.map Local.sketch).modify id g := by
  apply List.ext_getElem?
  intro i
  simp only [List.getElem?_map, List.getElem?_modify]
  cases ls[i]? with
  | none => simp
  | some l =>
    by_cases at_id : id = i
    · simp [at_id, commutes]
    · simp [at_id]

/-- A change of a local that its sketch does not show. -/
theorem sketch_modify {f : Local → Local} (same : ∀ l, (f l).sketch = l.sketch) (ls : Locals)
    (id : Nat) : (ls.modify id f).map Local.sketch = ls.map Local.sketch := by
  rw [modify_sketch (g := fun l => l) same]
  exact List.modify_id _ _

end Locals

namespace Emit

variable {α β γ δ : Type}

/-! ## Silent emissions -/

/-- An emission that fails only because of its code. -/
def Coded (m : Emit α) : Prop :=
  ∀ settings d e d', m settings d = .error e d' → e.aboutCode = true

namespace Coded

variable {m : Emit α} {f : α → Emit β}

theorem bind (first : Coded m) (second : ∀ a, Coded (f a)) : Coded (m >>= f) := by
  intro settings d e d' error
  rcases bind_error error with failed | ⟨a, d1, -, failed⟩
  · exact first settings d e d' failed
  · exact second a settings d1 e d' failed

theorem of_technical (technical : Technical m) : Coded m := fun settings d e d' error =>
  CompileError.of_technical (p := (·.aboutCode = true)) (fun _ => rfl) (fun _ => rfl)
    (technical settings d e d' error)

end Coded

/-- An emission that changes nothing but code, and fails only because of it. -/
structure Silent (m : Emit α) : Prop where
  keeps : ∀ {settings d a d'}, m settings d = .ok a d' → d'.Alike d
  coded : Coded m

namespace Silent

variable {m : Emit α} {f : α → Emit β}

theorem bind (first : Silent m) (second : ∀ a, Silent (f a)) : Silent (m >>= f) where
  keeps := fun ok => by
    obtain ⟨a, d1, started, rest⟩ := bind_ok.1 ok
    exact ((second a).keeps rest).trans (first.keeps started)
  coded := first.coded.bind fun a => (second a).coded

theorem pure (a : α) : Silent (pure a : Emit α) where
  keeps := fun ok => by cases ok; exact .refl _
  coded := .of_technical (.pure a)

theorem throw {e : CompileError} (code : e.aboutCode = true) : Silent (throw e : Emit α) where
  keeps := fun ok => by cases ok
  coded := fun _ _ _ _ error => by cases error; exact code

theorem read : Silent (read : Emit Settings) where
  keeps := fun ok => by cases ok; exact .refl _
  coded := .of_technical .read

theorem get : Silent (get : Emit Draft) where
  keeps := fun ok => by cases ok; exact .refl _
  coded := .of_technical .get

theorem word : Silent word := bind get fun _ => pure _

theorem here : Silent here := bind get fun _ => pure _

theorem convention : Silent convention := bind read fun _ => pure _

theorem modifyWord {f : Definition → Definition} (same : ∀ w, (f w).sketch = w.sketch) :
    Silent (modifyWord f) where
  keeps := fun ok => by cases ok; exact ⟨same _, rfl⟩
  coded := .of_technical (.modifyWord f)

theorem onHeap {operation : HeapM α}
    (same : ∀ {h a h'}, operation h = .ok a h' → h'.cursor = h.cursor) :
    Silent (onHeap operation) where
  keeps := fun ok => by
    obtain ⟨heap, done, rfl⟩ := onHeap_ok ok
    exact ⟨rfl, same done⟩
  coded := .of_technical (.onHeap operation)

theorem assembled (result : Except EncodeError α) : Silent (assembled result) := by
  cases result with
  | ok a => exact pure a
  | error e => exact throw rfl

theorem emitWord (w : InstrWord) : Silent (emitWord w) :=
  onHeap fun ok => by rw [(CodeHeap.emit_ok ok).2]; rfl

theorem emit (i : Instruction) : Silent (emit i) := emitWord _

theorem placeholder (p : Placeholder) : Silent (placeholder p) := emitWord _

theorem emitWords (ws : List InstrWord) : Silent (Emit.onHeap (CodeHeap.emitAll ws)) :=
  onHeap fun ok => by rw [CodeHeap.emitAll_ok ok]; rfl

theorem emitAll (is : List Instruction) : Silent (emitAll is) := emitWords _

theorem patch (index : Nat) (i : Instruction) : Silent (patch index i) :=
  onHeap fun ok => by rw [(CodeHeap.patch_ok ok).2.2]; rfl

theorem pushPatch (p : PendingPatch) : Silent (pushPatch p) := modifyWord fun _ => rfl

theorem spill (regs : RegSet) : Silent (spill regs) where
  keeps := fun ok => by
    obtain ⟨-, rfl⟩ := spill_ok ok
    exact ⟨congrArg (fun ls => { Definition.sketch _ with locals := ls })
      (Locals.sketch_clobber ..), rfl⟩
  coded := .of_technical (.spill regs)

theorem clobber (regs : RegSet) : Silent (clobber regs) :=
  bind (spill regs) fun _ => modifyWord fun _ => rfl

theorem barrier : Silent barrier := spill _

theorem loadImmediate (reg : Reg) (value : Cell) : Silent (loadImmediate reg value) := by
  refine bind (clobber _) fun _ => bind read fun settings => ?_
  split
  · exact emitAll _
  · exact bind (placeholder _) fun _ => bind (pushPatch _) fun _ => modifyWord fun _ => rfl

theorem laying : Laying @Silent where
  pure := pure
  bind := bind
  convention := convention
  here := here
  assembled := fun {_ _ result _} next => by
    cases result with
    | ok a => exact next a rfl
    | error e => exact throw rfl
  emit := fun _ => emit _
  clobber := clobber
  loadImmediate := loadImmediate
  leave := modifyWord fun _ => rfl
  read := read
  word := word
  emitAll := emitAll
  emitLiteral := fun _ => onHeap fun ok => by rw [(CodeHeap.emitLiteral_ok ok).2]; rfl
  patch := patch
  settle := fun _ => modifyWord fun _ => rfl
  fail := fun _ => throw rfl

theorem instruction (w : InstrWord) (clobbers : RegSet) : Silent (instruction w clobbers) :=
  bind (clobber _) fun _ => emitWord w

theorem verify (start data : Nat) : Silent (verify start data) := by
  refine bind get fun d => ?_
  split
  · exact throw rfl
  · exact pure _

end Silent

/-! ## Agreement -/

/-- Two emissions that from drafts alike give the same error, or related results in drafts alike. -/
def Agrees (Q : α → β → Prop) (m1 : Emit α) (m2 : Emit β) : Prop :=
  ∀ s1 s2 : Settings, s1.convention = s2.convention → Alongside Draft.Alike Q (m1 s1) (m2 s2)

/-- Agreement whatever the results. -/
abbrev Agree (m1 : Emit α) (m2 : Emit β) : Prop := Agrees (fun _ _ => True) m1 m2

/-- Silent emissions agree. -/
theorem Silent.agree {m1 : Emit α} {m2 : Emit β} (silent1 : Silent m1) (silent2 : Silent m2) :
    Agree m1 m2 := by
  intro s1 s2 _ d1 d2 alike
  cases outcome1 : m1 s1 d1 with
  | error e d => exact .left (silent1.coded _ _ _ _ outcome1)
  | ok a d1' =>
    cases outcome2 : m2 s2 d2 with
    | error e d => exact .right (silent2.coded _ _ _ _ outcome2)
    | ok b d2' =>
      exact .ok trivial (((silent1.keeps outcome1).trans alike).trans (silent2.keeps outcome2).symm)

namespace Agrees

variable {Q : α → β → Prop} {P : γ → δ → Prop} {m1 : Emit α} {m2 : Emit β} {f : α → Emit γ}
  {g : β → Emit δ}

theorem bind (first : Agrees Q m1 m2) (second : ∀ a b, Q a b → Agrees P (f a) (g b)) :
    Agrees P (m1 >>= f) (m2 >>= g) :=
  fun s1 s2 same => Alongside.bind (first s1 s2 same) fun a b results =>
    second a b results s1 s2 same

theorem seq (first : Agree m1 m2) (second : ∀ a b, Agrees P (f a) (g b)) :
    Agrees P (m1 >>= f) (m2 >>= g) :=
  bind first fun a b _ => second a b

theorem silently (silent1 : Silent m1) (silent2 : Silent m2)
    (second : ∀ a b, Agrees P (f a) (g b)) : Agrees P (m1 >>= f) (m2 >>= g) :=
  seq (silent1.agree silent2) second

theorem symm (agrees : Agrees Q m1 m2) : Agrees (fun b a => Q a b) m2 m1 := by
  intro s2 s1 same d2 d1 alike
  have outcomes := agrees s1 s2 same.symm d1 d2 alike.symm
  generalize m1 s1 d1 = r1 at outcomes
  generalize m2 s2 d2 = r2 at outcomes
  cases outcomes with
  | left code => exact .right code
  | right code => exact .left code
  | ok results alike => exact .ok results alike.symm
  | error alike => exact .error alike.symm

/-- A silent emission on one side goes unnoticed. -/
theorem left {m : Emit δ} (silent : Silent m1) (second : ∀ a, Agrees P (f a) m) :
    Agrees P (m1 >>= f) m := by
  intro s1 s2 same d1 d2 alike
  cases outcome : m1 s1 d1 with
  | error e d =>
    rw [show (m1 >>= f) s1 d1 = .error e d from bind_of_error outcome _]
    exact .left (silent.coded _ _ _ _ outcome)
  | ok a d =>
    rw [show (m1 >>= f) s1 d1 = f a s1 d from bind_of_ok outcome _]
    exact second a s1 s2 same d d2 ((silent.keeps outcome).trans alike)

theorem right {m : Emit γ} (silent : Silent m2) (second : ∀ b, Agrees P m (g b)) :
    Agrees P m (m2 >>= g) :=
  (left silent fun b => (second b).symm).symm

theorem pure {a : α} {b : β} (results : Q a b) :
    Agrees Q (pure a : Emit α) (pure b : Emit β) :=
  fun _ _ _ => .pure results

theorem throw (e : CompileError) : Agrees Q (throw e : Emit α) (throw e : Emit β) :=
  fun _ _ _ => .throw e

theorem convention : Agrees Eq convention convention :=
  fun _ _ same _ _ alike => .ok same alike

theorem word : Agrees (fun w v => w.sketch = v.sketch) word word :=
  fun _ _ _ _ _ alike => .ok alike.word alike

theorem depth : Agrees Eq depth depth :=
  fun _ _ _ _ _ alike => .ok (congrArg Definition.depth alike.word :) alike

theorem arity (result : Except ArityError α) : Agrees Eq (arity result) (arity result) := by
  cases result with
  | ok a => exact pure rfl
  | error e => exact throw _

theorem modifyWord {f g : Definition → Definition}
    (moves : ∀ w v, w.sketch = v.sketch → (f w).sketch = (g v).sketch) :
    Agree (modifyWord f) (modifyWord g) :=
  fun _ _ _ d1 d2 alike => .ok trivial ⟨moves d1.word d2.word alike.word, alike.cursor⟩

theorem setDepth (depth : Nat) : Agree (setDepth depth) (setDepth depth) :=
  modifyWord fun _ _ same => (congrArg (fun w => { w with depth }) same :)

/-! Values. -/

theorem counted : Agree (do Emit.setDepth ((← Emit.depth) + 1))
    (do Emit.setDepth ((← Emit.depth) + 1)) :=
  bind depth fun d _ same => same ▸ setDepth (d + 1)

theorem produce (r1 r2 : Reg) : Agree (produce r1) (produce r2) := by
  refine bind convention fun c _ same => ?_
  obtain rfl := same
  cases c with
  | register => exact counted
  | stack => exact silently (Silent.laying.push r1) (Silent.laying.push r2) fun _ _ => counted

theorem consume (what : String) : Agree (consume what) (consume what) := by
  refine bind depth fun n _ same => ?_
  obtain rfl := same
  dsimp only
  split
  · exact throw _
  · refine bind convention fun c _ same => ?_
    obtain rfl := same
    cases c with
    | register => exact seq (setDepth _) fun _ _ => pure trivial
    | stack =>
      exact silently (Silent.laying.pop _) (Silent.laying.pop _) fun _ _ =>
        seq (setDepth _) fun _ _ => pure trivial

theorem raiseIfNonzero (r1 r2 : Reg) : Agree (raiseIfNonzero r1) (raiseIfNonzero r2) :=
  silently (.placeholder _) (.placeholder _) fun _ _ =>
    silently (.pushPatch _) (.pushPatch _) fun _ _ =>
      modifyWord fun _ _ same => (congrArg (fun w => { w with raises := true }) same :)

theorem exposeError (r1 r2 : Reg) : Agree (exposeError r1) (exposeError r2) := by
  refine bind convention fun c _ same => ?_
  obtain rfl := same
  cases c with
  | register =>
    refine bind depth fun n _ same => ?_
    obtain rfl := same
    refine bind (arity _) fun target _ same => ?_
    obtain rfl := same
    -- Each side moves its code unless it is in the right register already.
    have moved (r : Reg) {m : Emit Unit} (rest : Agree (Emit.setDepth (n + 1)) m) : Agree
        (if r ≠ target then do
          Emit.clobber (.singleton target)
          let _ ← Emit.emit (Asm.mov target r)
          Emit.setDepth (n + 1)
        else
          Emit.setDepth (n + 1)) m := by
      split
      · exact left (.clobber _) fun _ => left (.emit _) fun _ => rest
      · exact rest
    exact moved r1 (moved r2 (setDepth _)).symm
  | stack =>
    have cleared (r : Reg) {m : Emit Unit}
        (rest : Agree (do Emit.setDepth ((← Emit.depth) + 1)) m) : Agree (do
          if r = .error then
            let _ ← Emit.emit (Asm.mov .error .xzr)
          Emit.setDepth ((← Emit.depth) + 1)) m := by
      dsimp only
      split
      · exact left (.emit _) fun _ => rest
      · exact rest
    exact silently (Silent.laying.push r1) (Silent.laying.push r2) fun _ _ =>
      cleared r1 (cleared r2 counted).symm

theorem checkError (r1 r2 : Reg) : Agree (checkError r1) (checkError r2) := by
  refine bind word fun w v same => ?_
  rw [Definition.sketch_signature same]
  split
  · exact raiseIfNonzero r1 r2
  · exact exposeError r1 r2

theorem literal (v1 v2 : Cell) : Agree (literal v1) (literal v2) := by
  refine bind convention fun c _ same => ?_
  obtain rfl := same
  refine bind depth fun n _ same => ?_
  obtain rfl := same
  exact bind (arity _) fun r1 r2 _ =>
    silently (.loadImmediate r1 v1) (.loadImmediate r2 v2) fun _ _ => produce r1 r2

/-! Locals. -/

/-- A local that has a value is read silently. -/
theorem readLocal (id : Nat) (r1 r2 : Reg) : Agree (readLocal id r1) (readLocal id r2) := by
  have moving (target source : Reg) : Silent (do
      Emit.clobber (.singleton target)
      let _ ← Emit.emit (Asm.mov target source)) :=
    .bind (.clobber _) fun _ => .bind (.emit _) fun _ => .pure _
  have loading (target : Reg) : Silent (do
      Emit.clobber (.singleton target)
      let index ← Emit.placeholder .localRead
      Emit.modifyWord fun w =>
        { w with locals := w.locals.modify id (·.recordRead index target) }) :=
    .bind (.clobber _) fun _ => .bind (.placeholder _) fun _ => .modifyWord fun w =>
      congrArg (fun ls => { w.sketch with locals := ls })
        (Locals.sketch_modify (f := (·.recordRead _ target)) (fun _ => rfl) w.locals id)
  refine bind word fun w v same => ?_
  have locals := Definition.sketch_locals same
  have found : w.locals[id]?.map Local.sketch = v.locals[id]?.map Local.sketch := by
    rw [← List.getElem?_map, ← List.getElem?_map, locals]
  cases found1 : w.locals[id]? with
  | none =>
    rw [found1, Option.map_none, eq_comm, Option.map_eq_none_iff] at found
    rw [found]
    exact pure trivial
  | some l =>
    rw [found1, Option.map_some, eq_comm] at found
    obtain ⟨l', found2, same⟩ := Option.map_eq_some_iff.1 found
    rw [found2]
    dsimp only
    by_cases unset : l.state = .uninitialized
    · rw [Local.access?_unset r1 unset, Local.access?_unset r2 ((Local.unset_iff same).2 unset),
        show l'.name = l.name from (congrArg Local.name same :)]
      exact throw _
    · obtain ⟨a1, access1⟩ := Local.access?_set r1 unset
      obtain ⟨a2, access2⟩ := Local.access?_set r2 fun h => unset ((Local.unset_iff same).1 h)
      rw [access1, access2]
      refine Silent.agree ?_ ?_
      · cases a1 with
        | inPlace => exact .pure _
        | move source => exact moving r1 source
        | load => exact loading r1
      · cases a2 with
        | inPlace => exact .pure _
        | move source => exact moving r2 source
        | load => exact loading r2

theorem getLocal (id : Nat) : Agree (getLocal id) (getLocal id) := by
  refine bind convention fun c _ same => ?_
  obtain rfl := same
  refine bind depth fun n _ same => ?_
  obtain rfl := same
  exact bind (arity _) fun r1 r2 _ => seq (readLocal id r1 r2) fun _ _ => produce r1 r2

theorem getLocalCalled (name : String) : Agree (getLocalCalled name) (getLocalCalled name) := by
  refine bind word fun w v same => ?_
  rw [← Locals.find?_sketch w.locals, ← Locals.find?_sketch v.locals, Definition.sketch_locals same]
  split
  · exact getLocal _
  · exact throw _

theorem assignLocal (id : Nat) (r1 r2 : Reg) : Agree (assignLocal id r1) (assignLocal id r2) := by
  have assigned (w : Definition) (r : Reg) :
      ({ w with locals := w.locals.modify id (·.assign r) } : Definition).sketch =
        { w.sketch with locals := w.sketch.locals.modify id fun l =>
          { l with state := .stable } } :=
    congrArg (fun ls => { w.sketch with locals := ls })
      (Locals.modify_sketch (f := (·.assign r)) (g := fun l => { l with state := .stable })
        (fun _ => rfl) w.locals id)
  refine modifyWord fun w v same => ?_
  rw [assigned, assigned, same]

theorem bindLocal (id : Nat) : Agree (bindLocal id) (bindLocal id) := by
  refine bind word fun w v same => ?_
  have locals := Definition.sketch_locals same
  have name : w.locals[id]?.map (·.name) = v.locals[id]?.map (·.name) := by
    have names := congrArg (fun ls : Locals => ls[id]?.map Local.name) locals
    simp only [List.getElem?_map, Option.map_map] at names
    exact names
  rw [name]
  exact bind (consume _) fun r1 r2 _ => assignLocal id r1 r2

theorem setLocal (name : String) : Agree (setLocal name) (setLocal name) := by
  refine bind word fun w v same => ?_
  have declared : (v.locals.declare name).1 = (w.locals.declare name).1 ∧
      (w.locals.declare name).2.map Local.sketch = (v.locals.declare name).2.map Local.sketch := by
    have locals := Definition.sketch_locals same
    have both := (Locals.declare_sketch w.locals name).symm.trans
      ((congrArg (Locals.declare · name) locals).trans (Locals.declare_sketch v.locals name))
    exact ⟨(congrArg Prod.fst both).symm, congrArg Prod.snd both⟩
  dsimp only
  rw [declared.1]
  refine seq (modifyWord fun w' v' same' => ?_) fun _ _ => bindLocal _
  have replaced := congrArg (fun ls => { w'.sketch with locals := ls }) declared.2
  rw [same'] at replaced
  exact (congrArg (fun s : Definition =>
    { s with locals := (w.locals.declare name).2.map Local.sketch }) same').trans replaced

/-! Calls. -/

section Calls

variable {e1 e2 : Entry}

/-- A call begins with a check of the pending values. -/
theorem checked {k1 : Nat → Emit α} {k2 : Nat → Emit β} (same : e1.sketch = e2.sketch)
    (rest : ∀ depth, Agrees Q (k1 depth) (k2 depth)) :
    Agrees Q
      (do
        let depth ← Emit.depth
        Emit.arity ((← Emit.convention).checkArity e1.name depth e1.inputs)
        k1 depth)
      (do
        let depth ← Emit.depth
        Emit.arity ((← Emit.convention).checkArity e2.name depth e2.inputs)
        k2 depth) := by
  refine bind depth fun n _ equal => ?_
  obtain rfl := equal
  refine bind convention fun c _ equal => ?_
  obtain rfl := equal
  rw [show e1.name = e2.name from (congrArg Entry.name same :),
    show e1.inputs = e2.inputs from (congrArg Entry.inputs same :)]
  exact bind (arity _) fun _ _ _ => rest n

/-- A call leaves as many values as the callee says. -/
theorem setDepth_after (same : e1.sketch = e2.sketch) (depth : Nat) :
    Agree (Emit.setDepth (depth - e1.inputs + e1.outputs))
      (Emit.setDepth (depth - e2.inputs + e2.outputs)) := by
  rw [show e1.inputs = e2.inputs from (congrArg Entry.inputs same :),
    show e1.outputs = e2.outputs from (congrArg Entry.outputs same :)]
  exact setDepth _

theorem call (same : e1.sketch = e2.sketch) : Agree (call e1) (call e2) := by
  refine checked same fun n => silently (Silent.laying.callEntry e1) (Silent.laying.callEntry e2)
    fun r1 r2 => seq (setDepth_after same n) fun _ _ => ?_
  rw [show e1.flags = e2.flags from (congrArg Entry.flags same :)]
  split
  · exact checkError r1 r2
  · exact pure trivial

/-- A copied body is like a call of a word that does not throw. -/
theorem call_inlineBody (same : e1.sketch = e2.sketch) (quiet : e1.flags.throws = false)
    (body : List InstrWord) : Agree (Emit.call e1) (inlineBody e2 body) := by
  refine checked same fun n => left (Silent.laying.callEntry e1) fun r =>
    right (.clobber _) fun _ => right (.emitWords body) fun _ => ?_
  rw [if_neg (by simp [quiet])]
  exact seq (setDepth_after same n) fun _ _ => pure trivial

theorem inlineBody (same : e1.sketch = e2.sketch) (body1 body2 : List InstrWord) :
    Agree (inlineBody e1 body1) (inlineBody e2 body2) :=
  checked same fun n => silently (.clobber _) (.clobber _) fun _ _ =>
    silently (.emitWords body1) (.emitWords body2) fun _ _ => setDepth_after same n

end Calls

/-! Control flow. -/

theorem ifPart : Agree ifPart ifPart :=
  bind (consume _) fun _ _ _ => silently .barrier .barrier fun _ _ =>
    silently (.placeholder _) (.placeholder _) fun _ _ => modifyWord fun _ _ same =>
      (congrArg (fun w => { w with control := .ifPart 0 .xzr w.depth :: w.control }) same :)

/-- Closing a branch. -/
theorem leave {outer outer' : List ControlFrame}
    (same : outer.map ControlFrame.sketch = outer'.map ControlFrame.sketch) :
    Agree (Emit.modifyWord fun w => { w with control := outer })
      (Emit.modifyWord fun w => { w with control := outer' }) :=
  modifyWord fun w v alike => by
    have closed := congrArg (fun s : Definition =>
      { s with control := outer.map ControlFrame.sketch }) alike
    exact closed.trans (congrArg (fun frames => { v.sketch with control := frames }) same)

theorem elsePart : Agree elsePart elsePart := by
  refine bind word fun w v same => ?_
  rcases Definition.sketch_control same with ⟨none1, none2⟩ |
    ⟨b, r, b', r', depth, outer, outer', left, right, rest⟩ |
    ⟨k, k', depth, trueDepth, outer, outer', left, right, -⟩
  · rw [none1, none2]
    exact throw _
  · rw [left, right]
    refine seq (leave rest) fun _ _ => silently .barrier .barrier fun _ _ =>
      bind word fun w v same => ?_
    rw [Definition.sketch_unreachable same, Definition.sketch_depth same]
    refine silently (.placeholder _) (.placeholder _) fun _ _ => silently .here .here fun _ _ =>
      silently (.assembled _) (.assembled _) fun _ _ =>
        silently (.patch _ _) (.patch _ _) fun _ _ => modifyWord fun _ _ same => ?_
    exact (congrArg (fun w => { w with
      control := .elsePart 0 depth (if v.unreachable then none else some v.depth) :: w.control
      depth, unreachable := false }) same :)
  · rw [left, right]
    exact throw _

theorem join (first second : Option Nat) : Agree (join first second) (join first second) := by
  have meet (depth : Nat) : Agree
      (Emit.modifyWord fun w => { w with depth, unreachable := false })
      (Emit.modifyWord fun w => { w with depth, unreachable := false }) :=
    modifyWord fun _ _ same => (congrArg (fun w => { w with depth, unreachable := false }) same :)
  cases first with
  | none =>
    cases second with
    | none =>
      exact modifyWord (f := fun w => { w with unreachable := true })
        (g := fun w => { w with unreachable := true }) fun _ _ same =>
          (congrArg (fun w => { w with unreachable := true }) same :)
    | some b => exact meet b
  | some a =>
    cases second with
    | none => exact meet a
    | some b =>
      unfold Emit.join
      dsimp only
      split
      · exact throw _
      · exact meet a

theorem thenPart : Agree thenPart thenPart := by
  refine bind word fun w v same => ?_
  rcases Definition.sketch_control same with ⟨none1, none2⟩ |
    ⟨b, r, b', r', depth, outer, outer', left, right, rest⟩ |
    ⟨k, k', depth, trueDepth, outer, outer', left, right, rest⟩
  · rw [none1, none2]
    exact throw _
  all_goals
    rw [left, right]
    refine seq (leave rest) fun _ _ => silently .barrier .barrier fun _ _ =>
      silently .here .here fun _ _ => bind word fun w v same => ?_
    rw [Definition.sketch_unreachable same, Definition.sketch_depth same]
    exact silently (.assembled _) (.assembled _) fun _ _ =>
      silently (.patch _ _) (.patch _ _) fun _ _ => join _ _

theorem exit : Agree exit exit := by
  refine bind word fun w v same => ?_
  rw [Definition.sketch_unreachable same, Definition.sketch_depth same,
    Definition.sketch_signature same, Definition.sketch_name same]
  dsimp only
  split
  · exact silently (.placeholder _) (.placeholder _) fun _ _ =>
      silently (.pushPatch _) (.pushPatch _) fun _ _ =>
        modifyWord fun _ _ same => (congrArg (fun w => { w with unreachable := true }) same :)
  · exact throw _

theorem raise : Agree raise raise := bind (consume _) fun r1 r2 _ => raiseIfNonzero r1 r2

theorem recurse : Agree recurse recurse := by
  refine bind word fun w v same => ?_
  refine bind convention fun c _ equal => ?_
  obtain rfl := equal
  rw [Definition.sketch_depth same, Definition.sketch_signature same, Definition.sketch_name same]
  exact bind (arity _) fun _ _ _ => silently (.clobber _) (.clobber _) fun _ _ =>
    silently (.placeholder _) (.placeholder _) fun _ _ =>
      silently (.placeholder _) (.placeholder _) fun _ _ =>
        silently (.pushPatch _) (.pushPatch _) fun _ _ => modifyWord fun _ _ same =>
          (congrArg (fun w => { w with
            depth := v.depth - v.signature.inputs + v.signature.outputs }) same :)

theorem primitiveBody (inputs outputs : Nat) (clobbers : RegSet) (body : List InstrWord) :
    Agree (primitiveBody inputs outputs clobbers body)
      (primitiveBody inputs outputs clobbers body) :=
  silently (Silent.laying.spreadInputs _) (Silent.laying.spreadInputs _) fun _ _ =>
    silently (.clobber _) (.clobber _) fun _ _ => silently (.emitWords _) (.emitWords _) fun _ _ =>
      silently (Silent.laying.gatherOutputs _) (Silent.laying.gatherOutputs _) fun _ _ => setDepth _

/-! The end. -/

theorem checkFinished : Agree checkFinished checkFinished := by
  refine bind word fun w v same => ?_
  rw [Definition.sketch_unreachable same, Definition.sketch_depth same,
    Definition.sketch_signature same, Definition.sketch_name same]
  rcases Definition.sketch_control same with ⟨none1, none2⟩ |
    ⟨b, r, b', r', depth, outer, outer', left, right, rest⟩ |
    ⟨k, k', depth, trueDepth, outer, outer', left, right, rest⟩
  · rw [none1, none2]
    dsimp only
    split
    · exact pure trivial
    · exact throw _
  all_goals
    rw [left, right]
    exact throw _

/-- A complete body is laid out silently. -/
theorem layOut (throws : Bool) : Agree (layOut throws) (layOut throws) := by
  obtain ⟨rest, split, silent⟩ := Silent.laying.layOut throws
  rw [split]
  exact seq checkFinished fun _ _ => silent.agree silent

theorem finish (throws : Bool) : Agree (finish throws) (finish throws) :=
  seq (layOut throws) fun _ _ => silently .word .word fun _ _ =>
    silently (.verify _ _) (.verify _ _) fun _ _ => silently .read .read fun _ _ => pure trivial

end Agrees

end Emit

end ForthJit
