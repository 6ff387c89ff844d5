import ForthJit.Proofs.Compiler.Edits
import ForthJit.Proofs.Compiler.Trail
import ForthJit.Proofs.Definition.Holds

/-!
# Which locals can be read

A definition keeps one state for each local, whatever part of a branch its operations stand in.  So
a read of a local is accepted exactly if an assignment of it came before, in the order of the
operations (`Compiler.perform_assigns`).  That is less than an assignment on every way to the read:
the way may have passed over the part in which the assignment stands, if that part was closed before
the read.  `reads_follow_assignments` says that this is the only exception, and
`read_after_closed_part` is a word that reads a local which one of its ways has not assigned.
-/

namespace ForthJit

variable {d d' : Draft} {assigned : String → Prop}

/-! ## Locals that stay -/

/-- A value that is at no home is in a register. -/
def Local.Backed (l : Local) : Prop := l.state = .unstable → l.resident ≠ none

/-- `l'` is `l`, whose value may have moved. -/
structure Local.Stays (l l' : Local) : Prop where
  name : l'.name = l.name
  state : l'.state = .uninitialized ↔ l.state = .uninitialized
  backed : l.Backed → l'.Backed

/-- The locals of `ls` stay, and there are no others in `ls'`. -/
abbrev Locals.Stay (ls ls' : Locals) : Prop := List.Forall₂ Local.Stays ls ls'

namespace Local.Stays

variable {l l' l'' : Local}

theorem refl (l : Local) : l.Stays l := ⟨rfl, Iff.rfl, fun backed => backed⟩

theorem trans (first : l.Stays l') (second : l'.Stays l'') : l.Stays l'' :=
  ⟨second.name.trans first.name, second.state.trans first.state,
    fun backed => second.backed (first.backed backed)⟩

theorem released {regs : RegSet} (released : Locals.Released regs l l') : l.Stays l' := by
  cases released with
  | stays => exact .refl l
  | leaves _ _ written => exact ⟨rfl, Iff.rfl, fun _ unstable => absurd unstable written⟩
  | spills index _ _ unstable => exact ⟨rfl, by simp [spill, unstable], fun _ => nofun⟩

theorem recordRead (l : Local) (index : Nat) (target : Reg) : l.Stays (l.recordRead index target) :=
  ⟨rfl, Iff.rfl, fun _ _ => nofun⟩

end Local.Stays

namespace Locals.Stay

variable {ls ls' ls'' : Locals}

theorem refl (ls : Locals) : ls.Stay ls := List.forall₂_same.2 fun l _ => .refl l

theorem trans (first : ls.Stay ls') (second : ls'.Stay ls'') : ls.Stay ls'' := by
  induction first generalizing ls'' with
  | nil =>
    cases second
    exact .nil
  | cons head _ ih =>
    cases second with
    | cons head' tail' => exact .cons (head.trans head') (ih tail')

theorem modify (ls : Locals) (id : Nat) {f : Local → Local} (each : ∀ l : Local, l.Stays (f l)) :
    ls.Stay (ls.modify id f) := by
  refine List.forall₂_iff_get.2 ⟨by rw [List.length_modify], fun k bound bound' => ?_⟩
  simp only [List.get_eq_getElem, List.getElem_modify]
  split
  · exact each _
  · exact .refl _

theorem of_mem_after (stay : ls.Stay ls') {l' : Local} (member : l' ∈ ls') :
    ∃ l ∈ ls, l.Stays l' := by
  obtain ⟨k, bound', rfl⟩ := List.mem_iff_getElem.1 member
  have bound := stay.length_eq.symm ▸ bound'
  exact ⟨_, List.getElem_mem bound, stay.get bound bound'⟩

end Locals.Stay

/-- No edit assigns a local or takes an assignment back. -/
theorem Draft.Edit.stay {foreign : InstrWord → Prop} {allowed : RegSet → Prop}
    (edit : d.Edit foreign allowed d') : d.word.locals.Stay d'.word.locals := by
  cases edit with
  | stage | reserve | copy | patch | announce => exact .refl _
  | spill regs => exact (Locals.clobber_released regs _ 0 _).imp fun _ _ => .released
  | read id index target => exact .modify _ id fun l => .recordRead l index target
  | note _ locals _ => exact locals ▸ .refl _

theorem Draft.Edits.stay {foreign : InstrWord → Prop} {allowed : RegSet → Prop}
    (edits : d.Edits foreign allowed d') : d.word.locals.Stay d'.word.locals :=
  edits.keeps (I := fun e => d.word.locals.Stay e.word.locals)
    (fun edit before => Locals.Stay.trans before edit.stay) (Locals.Stay.refl _)

/-! ## Assigned locals -/

namespace Locals

variable {ls ls' : Locals} {name : String}

def names (ls : Locals) : List String := ls.map (·.name)

theorem Stay.names (stay : ls.Stay ls') : ls'.names = ls.names := by
  induction stay with
  | nil => rfl
  | cons head _ ih => simp only [Locals.names, List.map_cons, head.name] at ih ⊢; rw [ih]

theorem names_modify (ls : Locals) (id : Nat) {f : Local → Local}
    (same : ∀ l, (f l).name = l.name) : Locals.names (ls.modify id f) = ls.names := by
  refine List.ext_getElem (by simp [names]) fun k _ _ => ?_
  simp only [names, List.getElem_map, List.getElem_modify]
  split
  · exact same _
  · rfl

theorem mem_names_declare (ls : Locals) (name n : String) :
    n ∈ names (ls.declare name).2 ↔ n = name ∨ n ∈ ls.names := by
  unfold declare
  cases found : ls.find? name with
  | none => simp [names, or_comm]
  | some id =>
    obtain ⟨bound, same, -⟩ := List.findIdx?_eq_some_iff_getElem.1 found
    have present : name ∈ ls.names :=
      List.mem_map.2 ⟨ls[id], List.getElem_mem bound, by simpa using same⟩
    constructor
    · exact Or.inr
    · rintro (rfl | old)
      · exact present
      · exact old

theorem find?_isSome : (ls.find? name).isSome = true ↔ name ∈ ls.names := by
  simp [find?, names]

/-- A local that is declared is at its position, and those at the others were there before. -/
theorem declare_getElem? {k : Nat} {l : Local} (other : k ≠ (ls.declare name).1)
    (found : (ls.declare name).2[k]? = some l) : l ∈ ls := by
  unfold declare at other found
  cases known : ls.find? name with
  | some id =>
    rw [known] at found
    exact List.mem_of_getElem? found
  | none =>
    rw [known] at found other
    rw [List.getElem?_append] at found
    split at found
    · exact List.mem_of_getElem? found
    · next beyond =>
      obtain ⟨bound, -⟩ := List.getElem?_eq_some_iff.1 found
      have : k = ls.length := by
        simp only [List.length_singleton] at bound
        omega
      exact absurd this other

end Locals

/-- The locals of `w` are those in `assigned`, and each has a value. -/
structure Definition.Assigns (assigned : String → Prop) (w : Definition) : Prop where
  valued : ∀ l ∈ w.locals, l.state ≠ .uninitialized
  names : ∀ name, name ∈ w.locals.names ↔ assigned name

namespace Definition.Assigns

variable {assigned assigned' : String → Prop} {w w' : Definition}

theorem congr (assigns : w.Assigns assigned) (same : ∀ name, assigned name ↔ assigned' name) :
    w.Assigns assigned' :=
  ⟨assigns.valued, fun name => (assigns.names name).trans (same name)⟩

theorem stay (assigns : w.Assigns assigned) (stay : w.locals.Stay w'.locals) :
    w'.Assigns assigned := by
  refine ⟨fun l' member unset => ?_, fun name => by rw [stay.names, assigns.names]⟩
  obtain ⟨l, old, stays⟩ := stay.of_mem_after member
  exact assigns.valued l old (stays.state.1 unset)

/-- A local is declared and given a value. -/
theorem set (assigns : w.Assigns assigned) (name : String) {ls : Locals} {reg : Reg}
    (stay : Locals.Stay (w.locals.declare name).2 ls)
    (locals : w'.locals = ls.modify (w.locals.declare name).1 (·.assign reg)) :
    w'.Assigns fun n => n = name ∨ assigned n := by
  constructor
  · intro l' member
    rw [locals] at member
    obtain ⟨k, bound, rfl⟩ := List.mem_iff_getElem.1 member
    rw [List.getElem_modify]
    split
    · exact nofun
    · next other =>
      rw [List.length_modify] at bound
      have old : k < (w.locals.declare name).2.length := stay.length_eq.symm ▸ bound
      have stays : Local.Stays _ ls[k] := stay.get old bound
      have before := Locals.declare_getElem? (Ne.symm other) (List.getElem?_eq_getElem old)
      exact fun unset => assigns.valued _ before (stays.state.1 unset)
  · intro n
    rw [locals, Locals.names_modify (f := (·.assign reg)) _ _ fun _ => rfl, stay.names,
      Locals.mem_names_declare, assigns.names]

end Definition.Assigns

/-- An action assigns the local that it sets, and no other. -/
theorem Action.assigns {a : Action} {settings : Settings}
    (done : a.emit settings d = .ok () d') (assigns : d.word.Assigns assigned) :
    d'.word.Assigns fun name => a = .setLocal name ∨ assigned name := by
  have allows : Allows (fun _ => True) settings := ⟨fun _ _ => trivial, trivial, trivial, trivial⟩
  by_cases sets : ∃ name, a = .setLocal name
  · obtain ⟨name, rfl⟩ := sets
    obtain ⟨reg, d1, edits, rfl⟩ := Emit.setLocal_edits (fun _ => True) allows done
    have stay := edits.stay
    refine (assigns.set name stay rfl).congr fun n => ?_
    simp only [Action.setLocal.injEq, eq_comm]
  · have other : ∀ name, a ≠ .setLocal name := fun name same => sets ⟨name, same⟩
    have copies : a.Copies fun _ => True := by
      cases a <;> simp [Action.Copies]
    have names : a.Names fun _ => True := by
      cases a <;> simp [Action.Names]
    have edits := Action.edits allows copies names other d () d' done
    refine (assigns.stay edits.stay).congr fun n => ?_
    simp only [other n, false_or]

namespace Compiler

variable {raw : InstrWord → RegSet → Prop} {b c c0 c' : Compiler} {w : Definition}
  {deeds : List Deed}
  {assigned : String → Prop}

theorem Acted.assigns (acted : Acted (·.Obeys raw) c0 deeds c) (isOpen : c0.definition = some w)
    (assigns : w.Assigns assigned) :
    ∃ w', c.definition = some w' ∧
      w'.Assigns fun name => (∃ deed ∈ deeds, deed.action = .setLocal name) ∨ assigned name := by
  induction acted with
  | start => exact ⟨w, isOpen, assigns.congr fun name => by simp⟩
  | heap _ _ _ ih => exact ih
  | @act deeds c w1 a d _ isOpen1 _ _ done ih =>
    obtain ⟨w', isOpen', assigns'⟩ := ih
    obtain rfl := Option.some.inj (isOpen1.symm.trans isOpen')
    refine ⟨d.word, rfl, (Action.assigns done assigns').congr fun name => ?_⟩
    simp only [List.mem_append, List.mem_singleton, or_and_right, exists_or, exists_eq_left]
    exact or_left_comm.trans or_assoc.symm

end Compiler

/-- The deeds of an operation assign what the operation does. -/
theorem Carried.assigns {event : Event} {deeds : List Deed} (carried : Carried event deeds)
    (name : String) :
    (∃ deed ∈ deeds, deed.action = .setLocal name) ↔ event.op = .setLocal name := by
  cases carried with
  | @simple op a start stop action silent =>
    simp only [List.mem_singleton, exists_eq_left]
    cases op <;> cases action <;> simp
  | recurse | string | getLocal => simp
  | call other | inline other =>
    simp only [List.mem_singleton, exists_eq_left, reduceCtorEq, false_iff]
    rintro rfl
    cases other
  | nothing other =>
    simp only [List.not_mem_nil, false_and, exists_false, false_iff]
    rintro rfl
    cases other

/-! ## Operations that succeed -/

namespace Compiler

variable {b c c0 c' : Compiler} {w : Definition} {events : List Event} {event : Event}
  {name : String}

/-- The events of operations that work on the open definition one after the other, if all succeed,
and the compiler that they leave. -/
def perform (c : Compiler) : List Operation → Option (List Event × Compiler)
  | [] => some ([], c)
  | op :: ops =>
    match c.definition, op.run c with
    | some w, .ok _ c' =>
      if op.inBody then (c'.perform ops).map fun (events, last) => (c.event w op :: events, last)
      else none
    | _, _ => none

variable {op : Operation} {ops : List Operation}

theorem perform_cons (done : c.perform (op :: ops) = some (events, c')) :
    ∃ w c1 later, c.definition = some w ∧ op.inBody = true ∧ op.run c = .ok () c1 ∧
      c1.perform ops = some (later, c') ∧ events = c.event w op :: later := by
  unfold perform at done
  split at done
  · next w _ c1 isOpen ok =>
    split at done
    · next inBody =>
      obtain ⟨⟨later, last⟩, rest, same⟩ := Option.map_eq_some_iff.1 done
      cases same
      exact ⟨w, c1, later, isOpen, inBody, ok, rest, rfl⟩
    · cases done
  · cases done

/-- An operation assigns the local that it sets, and no other. -/
theorem operation_assigns (isOpen : c.definition = some w)
    (inBody : op.inBody = true) (ok : op.run c = .ok () c') (assigns : w.Assigns assigned) :
    ∃ w', c'.definition = some w' ∧ w'.Assigns fun name => op = .setLocal name ∨ assigned name := by
  have obeys : op.Obeys fun _ _ => True := by
    cases op <;> simp [Operation.Obeys]
  obtain ⟨deeds, carried, acted⟩ := Acted.start.operation isOpen inBody obeys ok
  obtain ⟨w', isOpen', assigns'⟩ := acted.assigns isOpen assigns
  exact ⟨w', isOpen', assigns'.congr fun name => or_congr_left (carried.assigns name)⟩

/-- The locals of a definition are those that its operations have assigned. -/
theorem perform_assigns (done : c.perform ops = some (events, c'))
    (isOpen : c.definition = some w) (assigns : w.Assigns assigned) :
    ∃ w', c'.definition = some w' ∧
      w'.Assigns fun name => (∃ event ∈ events, event.op = .setLocal name) ∨ assigned name := by
  induction ops generalizing c w events assigned with
  | nil =>
    cases done
    exact ⟨w, isOpen, assigns.congr fun name => by simp⟩
  | cons op ops ih =>
    obtain ⟨w0, c1, later, isOpen0, inBody, ok, rest, rfl⟩ := perform_cons done
    obtain rfl := Option.some.inj (isOpen.symm.trans isOpen0)
    obtain ⟨w1, isOpen1, assigns1⟩ := operation_assigns isOpen inBody ok assigns
    obtain ⟨w', isOpen', assigns'⟩ := ih rest isOpen1 assigns1
    refine ⟨w', isOpen', assigns'.congr fun name => ?_⟩
    simp only [List.mem_cons, or_and_right, exists_or, exists_eq_left, event]
    exact or_left_comm.trans or_assoc.symm

/-- Each event was left by an operation that succeeded after those before it. -/
theorem perform_split {before after : List Event}
    (done : c.perform ops = some (before ++ event :: after, c')) :
    ∃ first c1 w op c2, c.perform first = some (before, c1) ∧ c1.definition = some w ∧
      op.inBody = true ∧ op.run c1 = .ok () c2 ∧ event = c1.event w op := by
  induction ops generalizing c before with
  | nil =>
    obtain ⟨same, -⟩ := Prod.mk.inj (Option.some.inj done)
    exact absurd same.symm (List.append_ne_nil_of_right_ne_nil _ (List.cons_ne_nil _ _))
  | cons op ops ih =>
    obtain ⟨w, c1, later, isOpen, inBody, ok, rest, same⟩ := perform_cons done
    cases before with
    | nil =>
      cases same
      exact ⟨[], c, w, op, c1, rfl, isOpen, inBody, ok, rfl⟩
    | cons head before =>
      obtain ⟨rfl, rfl⟩ := List.cons_eq_cons.1 same
      obtain ⟨first, c2, w', op', c3, prior, isOpen', inBody', ok', found⟩ := ih rest
      refine ⟨op :: first, c2, w', op', c3, ?_, isOpen', inBody', ok', found⟩
      simp only [perform, isOpen, ok, inBody, if_true, prior, Option.map_some]

/-- What has been read is a local of the definition. -/
theorem read_isLocal (isOpen : c.definition = some w) (ok : op.run c = .ok () c')
    (read : (c.event w op).read? = some name) : name ∈ w.locals.names := by
  rw [← Locals.find?_isSome]
  have called : ∀ {n : String}, Compiler.getLocal n c = .ok () c' →
      (w.locals.find? n).isSome = true := by
    intro n done
    obtain ⟨w0, d, isOpen0, emitted, -⟩ := emitting_ok done
    obtain rfl := Option.some.inj (isOpen.symm.trans isOpen0)
    have rest := Emit.tail_of emitted rfl
    cases found : w.locals.find? n with
    | some id => rfl
    | none =>
      rw [found] at rest
      cases rest
  cases op with
  | getLocal n =>
    cases read
    exact called ok
  | word n =>
    by_cases isLocal : (w.locals.find? n).isSome = true
    · simp only [event, callee?, Event.read?, if_pos isLocal, Option.some.injEq] at read
      exact read ▸ isLocal
    · -- Without a local of this name a word must be found.
      simp only [event, callee?, Event.read?, if_neg isLocal] at read
      cases named : c.dictionary.lookup? n with
      | some id =>
        rw [named] at read
        cases read
      | none =>
        obtain ⟨w0, c1, got, rest⟩ := bind_eq_ok.1 ok
        obtain ⟨rfl, isOpen0⟩ := active_ok got
        obtain rfl := Option.some.inj (isOpen.symm.trans isOpen0)
        rw [if_neg isLocal] at rest
        obtain ⟨id, c2, found, -⟩ := bind_eq_ok.1 rest
        cases named.symm.trans (find_ok found).2
  | _ => cases read

end Compiler

/-! ## Reads that are refused -/

/-- The error says that a local has no value. -/
def CompileError.isUnassigned : CompileError → Bool
  | .uninitializedLocal _ => true
  | _ => false

namespace Emit

/-- A local that has a value can be read, if there is room. -/
theorem getLocal_valued {settings : Settings} {e : CompileError} {id : Nat} {l : Local}
    (found : d.word.locals[id]? = some l) (valued : l.state ≠ .uninitialized)
    (error : getLocal id settings d = .error e d') : e.isUnassigned = false := by
  have unassigned : e.isTechnical = true → e.isUnassigned = false :=
    CompileError.of_technical (p := (·.isUnassigned = false)) (fun _ => rfl) fun _ => rfl
  have rest := tail_of (tail_of error rfl :) rfl
  generalize settings.convention.produceReg d.word.depth = result at rest
  cases result with
  | error e1 =>
    cases rest
    rfl
  | ok target =>
    rcases bind_error (tail_of rest rfl :) with unread | ⟨_, d2, -, counts⟩
    · have rest := tail_of unread rfl
      rw [found] at rest
      dsimp only at rest
      cases access : l.access? target with
      | none =>
        unfold Local.access? at access
        split at access
        · next unset => exact absurd unset valued
        · cases access
        · cases access
      | some how =>
        rw [access] at rest
        cases how with
        | inPlace => cases rest
        | move source =>
          exact unassigned
            (Technical.bind (.clobber _) (fun _ => .bind (.onHeap _) fun _ => .pure _) _ _ _ _ rest)
        | load =>
          exact unassigned (Technical.bind (.clobber _) (fun _ => .bind (.onHeap _) fun _ =>
            .modifyWord _) _ _ _ _ rest)
    · exact unassigned (Technical.produce _ _ _ _ _ counts)

end Emit

namespace Compiler

variable {c c' : Compiler} {w : Definition} {assigned : String → Prop} {name : String}

/-- A read is refused for want of a value exactly if the local has not been assigned. -/
theorem getLocal_refused (isOpen : c.definition = some w) (assigns : w.Assigns assigned) :
    (assigned name → ∀ e c', Compiler.getLocal name c = .error e c' → e.isUnassigned = false) ∧
      (¬assigned name → Compiler.getLocal name c = .error (.uninitializedLocal name) c) := by
  constructor
  · intro isAssigned e c' error
    rw [Compiler.getLocal, emitting_some isOpen] at error
    split at error
    · cases error
    · next e1 d failed =>
      cases error
      have rest := Emit.tail_of failed rfl
      have present := Locals.find?_isSome.2 ((assigns.names name).2 isAssigned)
      obtain ⟨id, found⟩ := Option.isSome_iff_exists.1 present
      rw [found] at rest
      obtain ⟨bound, -, -⟩ := List.findIdx?_eq_some_iff_getElem.1 found
      exact Emit.getLocal_valued (List.getElem?_eq_getElem bound)
        (assigns.valued _ (List.getElem_mem bound)) rest
  · intro unassigned
    have absent : w.locals.find? name = none := by
      rw [← Option.not_isSome_iff_eq_none, Locals.find?_isSome, assigns.names]
      exact unassigned
    have failed : Emit.getLocalCalled name c.settings ⟨c.heap, w⟩ =
        .error (.uninitializedLocal name) ⟨c.heap, w⟩ := by
      have got : Emit.word c.settings ⟨c.heap, w⟩ = .ok w ⟨c.heap, w⟩ := rfl
      simp only [Emit.getLocalCalled, bind, ReaderT.bind]
      rw [EStateM.bind, got]
      dsimp only
      rw [absent]
      rfl
    rw [Compiler.getLocal, emitting_some isOpen, failed]
    show EStateM.Result.error _ { c with definition := some w } = _
    rw [← isOpen]

end Compiler

/-! ## Ways -/

/-- What is passed over after operations, if anything still is. -/
def Skip.over (s : Skip) (ops : List Operation) : Option Skip := ops.foldlM next s

/-- What is passed over from further inside is not ended before what is passed over from outside. -/
theorem Skip.next_deeper {outer outer' skip : Skip} {op : Operation}
    (level : outer.nested ≤ skip.nested) (step : outer.next op = some outer')
    (atElse : outer.toElse = true) :
    ∃ skip', skip.next op = some skip' ∧ outer'.nested ≤ skip'.nested ∧ outer'.toElse = true := by
  obtain ⟨toElse, outside⟩ := outer
  obtain ⟨toElse', inside⟩ := skip
  simp only at level atElse
  subst atElse
  cases op with
  | ifPart =>
    cases step
    exact ⟨_, rfl, Nat.succ_le_succ level, rfl⟩
  | elsePart =>
    cases outside with
    | zero => cases step
    | succ n =>
      cases step
      obtain ⟨m, rfl⟩ := Nat.exists_eq_succ_of_ne_zero (Nat.ne_zero_of_lt level)
      exact ⟨_, rfl, level, rfl⟩
  | thenPart =>
    cases outside with
    | zero => cases step
    | succ n =>
      cases step
      obtain ⟨m, rfl⟩ := Nat.exists_eq_succ_of_ne_zero (Nat.ne_zero_of_lt level)
      exact ⟨_, rfl, Nat.le_of_succ_le_succ level, rfl⟩
  | _ =>
    cases step
    exact ⟨_, rfl, level, rfl⟩

/-- The operations close the part of a branch in which they begin. -/
def closesPart (ops : List Operation) : Bool := (Skip.over ⟨true, 0⟩ ops).isNone

namespace Trail

variable {trail : Trail} {name : String} {assigned : List String}

/-- If the way goes on, the local is assigned on it. -/
def Knows (name : String) : Trail → Prop
  | running assigned | skipping _ assigned => name ∈ assigned
  | returned => True

theorem onward_eq_flatMap (trails : List Trail) (events : List Event) :
    onward trails events = trails.flatMap fun trail => onward [trail] events := by
  induction events generalizing trails with
  | nil => simp [onward]
  | cons event events ih =>
    show onward (trails.flatMap (next event.op)) events = _
    rw [ih, List.flatMap_assoc]
    refine List.flatMap_congr fun trail _ => ?_
    rw [← ih]
    simp [onward]

theorem Knows.next {op : Operation} (knows : trail.Knows name) :
    ∀ after ∈ trail.next op, after.Knows name := by
  intro after member
  cases trail with
  | running assigned =>
    cases op with
    | setLocal other =>
      obtain rfl := List.mem_singleton.1 member
      exact List.mem_cons_of_mem _ knows
    | ifPart =>
      rcases List.mem_cons.1 member with rfl | later
      · exact knows
      · obtain rfl := List.mem_singleton.1 later
        exact knows
    | exit =>
      obtain rfl := List.mem_singleton.1 member
      exact trivial
    | _ =>
      obtain rfl := List.mem_singleton.1 member
      exact knows
  | skipping skip assigned =>
    unfold Trail.next at member
    dsimp only at member
    split at member
    all_goals
      obtain rfl := List.mem_singleton.1 member
      exact knows
  | returned =>
    obtain rfl := List.mem_singleton.1 member
    exact trivial

/-- An assignment is not forgotten. -/
theorem Knows.onward {trails : List Trail} (knows : ∀ trail ∈ trails, trail.Knows name)
    (events : List Event) : ∀ after ∈ onward trails events, after.Knows name := by
  induction events generalizing trails with
  | nil => exact knows
  | cons event events ih =>
    refine ih fun after member => ?_
    obtain ⟨trail, old, new⟩ := List.mem_flatMap.1 member
    exact (knows trail old).next after new

/-- A way that passes over code still does so while no part that was open is closed. -/
theorem skipping_onward {skip outer inner : Skip} {events : List Event}
    (level : outer.nested ≤ skip.nested)
    (isOpen : outer.over (events.map (·.op)) = some inner) (atElse : outer.toElse = true) :
    ∀ after ∈ onward [skipping skip assigned] events, ∃ skip', after = skipping skip' assigned := by
  induction events generalizing skip outer with
  | nil =>
    intro after member
    exact ⟨skip, List.mem_singleton.1 member⟩
  | cons event events ih =>
    obtain ⟨outer', step, rest⟩ := Option.bind_eq_some_iff.1 isOpen
    obtain ⟨skip', passes, level', atElse'⟩ := Skip.next_deeper level step atElse
    have single : [skipping skip assigned].flatMap (next event.op) = [skipping skip' assigned] := by
      simp [next, passes]
    show ∀ after ∈ onward ([skipping skip assigned].flatMap (next event.op)) events, _
    rw [single]
    exact ih level' rest atElse'

theorem returned_onward (events : List Event) : onward [returned] events = [returned] := by
  induction events with
  | nil => rfl
  | cons event events ih => exact ih

/-- A way that comes to a point has passed the assignments before it whose part is still open. -/
theorem assigned_of_open {trails : List Trail} {set : Event} {later : List Event}
    (sets : set.op = .setLocal name) (isOpen : closesPart (later.map (·.op)) = false)
    (reached : running assigned ∈ onward trails (set :: later)) : name ∈ assigned := by
  have reached : running assigned ∈ onward (trails.flatMap (next set.op)) later := reached
  rw [onward_eq_flatMap, List.mem_flatMap] at reached
  obtain ⟨start, member, reached⟩ := reached
  obtain ⟨trail, -, isStart⟩ := List.mem_flatMap.1 member
  rw [sets] at isStart
  cases trail with
  | running before =>
    obtain rfl := List.mem_singleton.1 isStart
    exact Knows.onward (fun _ isIt => List.mem_singleton.1 isIt ▸ List.mem_cons_self)
      later _ reached
  | skipping skip before =>
    obtain rfl := List.mem_singleton.1 isStart
    obtain ⟨inner, stays⟩ := Option.isSome_iff_exists.1 (by simpa [closesPart] using isOpen)
    obtain ⟨skip', same⟩ := skipping_onward (Nat.zero_le _) stays rfl _ reached
    cases same
  | returned =>
    obtain rfl := List.mem_singleton.1 isStart
    rw [returned_onward] at reached
    cases List.mem_singleton.1 reached

end Trail

namespace Compiler

/-- In a definition of which all operations succeed, a local that is read has been assigned by an
operation before, and on every way to the read, unless every such operation stands in a part of a
branch that has been closed since.  A read is refused for want of a value exactly if no operation
before has assigned the local. -/
theorem reads_follow_assignments {b c0 c : Compiler} {word : String} {signature : Signature}
    {id : EntryId} {ops : List Operation} {events : List Event}
    (begun : beginWord word signature b = .ok id c0) (done : c0.perform ops = some (events, c)) :
    (∀ before event after name, events = before ++ event :: after → event.read? = some name →
      (∃ set ∈ before, set.op = .setLocal name) ∧
      ∀ assigned, .running assigned ∈ Trail.onward [.running []] before →
        name ∈ assigned ∨ ∀ earlier set later, before = earlier ++ set :: later →
          set.op = .setLocal name → closesPart (later.map (·.op)) = true) ∧
    ∀ name,
      ((∃ set ∈ events, set.op = .setLocal name) →
        ∀ e c', Compiler.getLocal name c = .error e c' → e.isUnassigned = false) ∧
      ((∀ set ∈ events, set.op ≠ .setLocal name) →
        Compiler.getLocal name c = .error (.uninitializedLocal name) c) := by
  have start : ∃ w, c0.definition = some w ∧ w.Assigns fun _ => False := by
    rcases beginWord_cases word signature b with
      ⟨e, failed⟩ | ⟨-, -, -, ⟨e, heap, -, failed⟩ | ⟨heap, -, made⟩⟩
    · cases begun.symm.trans failed
    · cases begun.symm.trans failed
    · cases begun.symm.trans made
      exact ⟨_, rfl, fun _ member => absurd member List.not_mem_nil,
        fun _ => by simp [Locals.names]⟩
  obtain ⟨w0, isOpen0, assigns0⟩ := start
  constructor
  · rintro before event after name rfl read
    obtain ⟨first, c1, w, op, c2, prior, isOpen, -, ok, rfl⟩ := perform_split done
    obtain ⟨w', isOpen', assigns⟩ := perform_assigns prior isOpen0 assigns0
    obtain rfl := Option.some.inj (isOpen.symm.trans isOpen')
    have isLocal := (assigns.names name).1 (read_isLocal isOpen ok read)
    refine ⟨isLocal.resolve_right (fun never => never), fun assigned reached => ?_⟩
    rw [or_iff_not_imp_left]
    rintro missing earlier set later rfl sets
    by_contra isOpen
    rw [Bool.not_eq_true] at isOpen
    have reached : .running assigned ∈ Trail.onward (Trail.onward [.running []] earlier)
        (set :: later) := by
      simpa only [Trail.onward, List.foldl_append] using reached
    exact missing (Trail.assigned_of_open sets isOpen reached)
  · intro name
    obtain ⟨w, isOpen, assigns⟩ := perform_assigns done isOpen0 assigns0
    obtain ⟨accepted, refused⟩ := getLocal_refused isOpen assigns
    refine ⟨fun set => accepted (Or.inl set), fun unset => refused ?_⟩
    rintro (⟨set, member, sets⟩ | never)
    · exact unset set member sets
    · exact never

/-- A local is assigned before a branch and read in one of its parts; another one is never
assigned. -/
theorem read_in_open_part :
    ∃ b id c0 events c, create {} {} = .ok b ∧
      beginWord "one-or-two" { inputs := 1, outputs := 1 } b = .ok id c0 ∧
      c0.perform [.setLocal "n", .literal 1, .ifPart, .getLocal "n", .elsePart, .literal 2,
        .thenPart] = some (events, c) ∧
      (∀ assigned, .running assigned ∈ Trail.onward [.running []] (events.take 3) →
        "n" ∈ assigned) ∧
      Compiler.getLocal "m" c = .error (.uninitializedLocal "m") c := by
  have state : (create {} {}).toOption.bind (fun b =>
      (success? (beginWord "one-or-two" { inputs := 1, outputs := 1 }) b).bind fun (_, c) =>
        (c.perform [.setLocal "n", .literal 1, .ifPart, .getLocal "n", .elsePart, .literal 2,
          .thenPart]).map fun (events, _) => events.length) = some 7 := by
    decide +kernel
  obtain ⟨b, created, state⟩ := toOption_bind.1 state
  obtain ⟨id, c0, begun, state⟩ := success?_bind.1 state
  obtain ⟨⟨events, c⟩, done, -⟩ := Option.map_eq_some_iff.1 state
  obtain ⟨reads, refusals⟩ := reads_follow_assignments begun done
  refine ⟨b, id, c0, events, c, created, begun, done, ?_⟩
  obtain ⟨w0, c1, later1, -, -, -, rest1, rfl⟩ := perform_cons done
  obtain ⟨w1, c2, later2, -, -, -, rest2, rfl⟩ := perform_cons rest1
  obtain ⟨w2, c3, later3, -, -, -, rest3, rfl⟩ := perform_cons rest2
  obtain ⟨w3, c4, later4, -, -, -, rest4, rfl⟩ := perform_cons rest3
  obtain ⟨w4, c5, later5, -, -, -, rest5, rfl⟩ := perform_cons rest4
  obtain ⟨w5, c6, later6, -, -, -, rest6, rfl⟩ := perform_cons rest5
  obtain ⟨w6, c7, later7, -, -, -, rest7, rfl⟩ := perform_cons rest6
  cases rest7
  constructor
  · intro assigned reached
    obtain ⟨-, known⟩ := reads [_, _, _] _ [_, _, _] "n" rfl rfl
    rcases known assigned reached with assigned | closed
    · exact assigned
    · have isOpen : closesPart [.literal 1, .ifPart] = false := rfl
      cases isOpen.symm.trans (closed [] _ _ rfl rfl)
  · refine (refusals "m").2 fun set member => ?_
    simp only [List.mem_cons, List.not_mem_nil, or_false] at member
    rcases member with rfl | rfl | rfl | rfl | rfl | rfl | rfl <;> simp [event]

/-- A word that reads a local which it has assigned in a part that one of its ways passes over. -/
theorem read_after_closed_part :
    ∃ b id c0 events c id' c', create {} {} = .ok b ∧
      beginWord "f" { inputs := 1, outputs := 1 } b = .ok id c0 ∧
      c0.perform [.ifPart, .literal 5, .setLocal "x", .thenPart, .getLocal "x"] =
        some (events, c) ∧ endWord c = .ok id' c' ∧
      Trail.onward [.running []] (events.take 4) = [.running ["x"], .running []] ∧
      events[4]?.bind Event.read? = some "x" := by
  have state : (create {} {}).toOption.bind (fun b =>
      (success? (beginWord "f" { inputs := 1, outputs := 1 }) b).bind fun (_, c) =>
        (c.perform [.ifPart, .literal 5, .setLocal "x", .thenPart, .getLocal "x"]).bind
          fun (events, c) => (success? endWord c).map fun _ =>
            (Trail.onward [.running []] (events.take 4), events[4]?.bind Event.read?)) =
      some ([.running ["x"], .running []], some "x") := by
    decide +kernel
  obtain ⟨b, created, state⟩ := toOption_bind.1 state
  obtain ⟨id, c0, begun, state⟩ := success?_bind.1 state
  obtain ⟨⟨events, c⟩, done, state⟩ := Option.bind_eq_some_iff.1 state
  obtain ⟨id', c', ended, state⟩ := success?_map.1 state
  obtain ⟨ways, read⟩ := Prod.mk.inj state
  exact ⟨b, id, c0, events, c, id', c', created, begun, done, ended, ways, read⟩

end Compiler

end ForthJit
