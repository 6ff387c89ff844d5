import ForthJit.Proofs.Compiler.Conduct
import ForthJit.Proofs.Compiler.LaidOut
import ForthJit.Proofs.Compiler.Level
import ForthJit.Proofs.Compiler.Session

/-!
# Ways through a definition

A body is compiled in one pass, but it is run along many ways: at a test one part is run and the
other passed over.  `Way` follows one of them with the number of values it has, which it counts by
the effect of each operation.  The definition has one count of pending values for all of them, and
notes in its open branches the counts to go back to.  `agrees_next` says that no successful
operation lets the definition and a way differ.
-/

namespace ForthJit

/-! ## Counting values -/

/-- There are `k` more values in `w'` than in `w`; the open branches are the same. -/
structure Definition.Counted (k : Int) (w w' : Definition) : Prop where
  depth : (w'.depth : Int) = w.depth + k
  control : w'.control = w.control
  unreachable : w'.unreachable = w.unreachable
  signature : w'.signature = w.signature

namespace Definition

variable {w w' w'' : Definition} {k k' : Int}

theorem SameShape.counted (same : w.SameShape w') : w.Counted 0 w' :=
  ⟨by rw [same.depth, Int.add_zero], same.control, same.unreachable, same.signature⟩

theorem Counted.trans (first : w.Counted k w') (second : w'.Counted k' w'') :
    w.Counted (k + k') w'' :=
  ⟨by rw [second.depth, first.depth, Int.add_assoc], second.control.trans first.control,
    second.unreachable.trans first.unreachable, second.signature.trans first.signature⟩

/-- The count is set anew. -/
theorem SameShape.recount (same : w.SameShape w') {depth : Nat}
    (more : (depth : Int) = w.depth + k) : w.Counted k { w' with depth } :=
  ⟨more, same.control, same.unreachable, same.signature⟩

end Definition

/-- The same values are pending, in the same branches. -/
def Draft.SameShape (d d' : Draft) : Prop := d.word.SameShape d'.word

instance : IsPreorder Draft Draft.SameShape where
  refl d := .refl d.word
  trans _ _ _ first second := Definition.SameShape.trans first second

namespace Emit

variable {α β : Type} {settings : Settings} {m : Emit α} {f : α → Emit β} {d d' : Draft}

/-- If `m` succeeds it counts no values and opens or closes no branch. -/
abbrev Shapes (settings : Settings) (m : Emit α) : Prop := Moves Draft.SameShape settings m

theorem sameShape_overlooks : Overlooks Draft.SameShape :=
  ⟨fun _ _ => ⟨rfl, rfl, rfl, rfl⟩, fun _ _ _ _ _ _ => ⟨rfl, rfl, rfl, rfl⟩⟩

theorem shaping : Routine fun {_} m => Shapes settings m := sameShape_overlooks.routine

theorem emitWord_shapes (w : InstrWord) : Shapes settings (emitWord w) :=
  .emitWord fun d => sameShape_overlooks.stage d [w]

theorem raiseIfNonzero_shapes (reg : Reg) : Shapes settings (raiseIfNonzero reg) :=
  .bind (emitWord_shapes _) fun _ => .bind (sameShape_overlooks.pushPatch _) fun _ =>
    .modifyWord fun _ => ⟨rfl, rfl, rfl, rfl⟩

/-- If `m` succeeds it leaves `k` more values. -/
def Counts (settings : Settings) (k : Int) (m : Emit α) : Prop :=
  ∀ d a d', m settings d = .ok a d' → d.word.Counted k d'.word

theorem Counts.bind {k k' : Int} (first : Counts settings k m)
    (second : ∀ a, Counts settings k' (f a)) : Counts settings (k + k') (m >>= f) := by
  intro d b d' ok
  obtain ⟨a, d1, done, rest⟩ := bind_ok.1 ok
  exact (first d a d1 done).trans (second a d1 b d' rest)

theorem Shapes.counts (shapes : Shapes settings m) : Counts settings 0 m :=
  fun d a d' ok => Definition.SameShape.counted (shapes d a d' ok)

theorem Shapes.before {k : Int} (first : Shapes settings m)
    (second : ∀ a, Counts settings k (f a)) : Counts settings k (m >>= f) := by
  have both := Counts.bind first.counts second
  rwa [Int.zero_add] at both

theorem Counts.after {k : Int} (first : Counts settings k m) (second : ∀ a, Shapes settings (f a)) :
    Counts settings k (m >>= f) := by
  have both := Counts.bind first fun a => (second a).counts
  rwa [Int.add_zero] at both

/-- One more than there are now. -/
theorem increment_counts : Counts settings 1 (do setDepth ((← depth) + 1)) := by
  intro d a d' ok
  have counted := tail_of ok rfl
  cases counted
  exact (Definition.SameShape.refl d.word).recount (by push_cast; ring)

theorem produce_counts (reg : Reg) : Counts settings 1 (produce reg) := by
  refine Shapes.before .convention fun c => ?_
  cases c with
  | register => exact increment_counts
  | stack => exact Shapes.before (shaping.push reg) fun _ => increment_counts

/-- There is a value to be taken if one is taken. -/
theorem consume_counts {what : String} {reg : Reg} (ok : consume what settings d = .ok reg d') :
    0 < d.word.depth ∧ d.word.Counted (-1) d'.word := by
  have rest := tail_of ok rfl
  split at rest
  · cases rest
  · next some =>
    have positive : 0 < d.word.depth := Nat.pos_of_ne_zero some
    have fewer : ((d.word.depth - 1 : Nat) : Int) = d.word.depth + -1 := by omega
    replace rest := tail_of rest rfl
    refine ⟨positive, ?_⟩
    cases convention : settings.convention with
    | register =>
      rw [convention] at rest
      replace rest := tail_of rest rfl
      cases rest
      exact (Definition.SameShape.refl d.word).recount fewer
    | stack =>
      rw [convention] at rest
      obtain ⟨_, d3, popped, rest⟩ := bind_ok.1 rest
      replace rest := tail_of rest rfl
      cases rest
      exact (shaping.pop _ d _ d3 popped).recount fewer

theorem literal_counts (value : Cell) : Counts settings 1 (literal value) :=
  Shapes.before .convention fun _ => Shapes.before .depth fun _ => Shapes.before (.arity _) fun _ =>
    Shapes.before (shaping.loadImmediate _ _) fun _ => produce_counts _

theorem getLocalCalled_counts (name : String) : Counts settings 1 (getLocalCalled name) := by
  refine Shapes.before .word fun w => ?_
  split
  · exact Shapes.before .convention fun _ => Shapes.before .depth fun _ =>
      Shapes.before (.arity _) fun _ => Shapes.before (sameShape_overlooks.readLocal _ _) fun _ =>
        produce_counts _
  · intro d a d' ok
    cases ok

theorem setLocal_counts (name : String) : Counts settings (-1) (setLocal name) :=
  Shapes.before .word fun _ => Shapes.before (.modifyWord fun _ => ⟨rfl, rfl, rfl, rfl⟩) fun _ =>
    Shapes.before .word fun _ => Counts.after (fun _ _ _ ok => (consume_counts ok).2) fun _ =>
      .modifyWord fun _ => ⟨rfl, rfl, rfl, rfl⟩

theorem instruction_shapes (w : InstrWord) (clobbers : RegSet) :
    Shapes settings (instruction w clobbers) :=
  .bind (shaping.clobber _) fun _ => emitWord_shapes _

theorem raise_counts : Counts settings (-1) raise :=
  Counts.after (fun _ _ _ ok => (consume_counts ok).2) fun _ => raiseIfNonzero_shapes _

theorem exposeError_counts (reg : Reg) : Counts settings 1 (exposeError reg) := by
  refine Shapes.before .convention fun c => ?_
  cases c with
  | register =>
    intro d a d' ok
    obtain ⟨target, d2, produced, rest⟩ := bind_ok.1 (tail_of ok rfl :)
    have same := Moves.arity (R := Draft.SameShape) _ d _ d2 produced
    dsimp only at rest
    have counted : ∀ {d3 : Draft}, d.word.SameShape d3.word →
        setDepth (d.word.depth + 1) settings d3 = .ok a d' → d.word.Counted 1 d'.word := by
      intro d3 same done
      cases done
      exact same.recount (by push_cast; ring)
    split at rest
    · obtain ⟨_, d3, clobbered, rest⟩ := bind_ok.1 rest
      obtain ⟨_, d4, moved, rest⟩ := bind_ok.1 rest
      exact counted ((same.trans (shaping.clobber _ _ _ _ clobbered)).trans
        (emitWord_shapes _ _ _ _ moved)) rest
    · exact counted same rest
  | stack =>
    refine Shapes.before (shaping.push reg) fun _ => ?_
    dsimp only
    split
    · exact Shapes.before (emitWord_shapes _) fun _ => increment_counts
    · exact increment_counts

/-- A call that can be made has its arguments. -/
theorem checkArity_ok {name : String} {depth inputs : Nat}
    (ok : arity (settings.convention.checkArity name depth inputs) settings d = .ok () d') :
    inputs ≤ depth ∧ d' = d := by
  unfold Convention.checkArity at ok
  split at ok
  · cases ok
  · next enough =>
    split at ok
    · cases ok
    · cases ok
      exact ⟨Nat.le_of_not_lt enough, rfl⟩

/-- A call takes the arguments of `e` and leaves its results, and an error code that is not dealt
with. -/
def callEffect (autoTry : Bool) (e : Entry) : Int :=
  (e.outputs : Int) - e.inputs + if e.flags.throws && !autoTry then 1 else 0

theorem call_counts {callee : Entry} (ok : call callee settings d = .ok () d') :
    d.word.Counted (callEffect d.word.signature.autoTry callee) d'.word := by
  obtain ⟨_, d3, checked, following⟩ := bind_ok.1 (tail_of (tail_of ok rfl :) rfl :)
  obtain ⟨enough, rfl⟩ := checkArity_ok checked
  obtain ⟨reg, d4, called, last⟩ := bind_ok.1 following
  have final := tail_of last rfl
  have same := shaping.callEntry callee d3 reg d4 called
  have counted : d3.word.Counted ((callee.outputs : Int) - callee.inputs)
      { d4.word with depth := d3.word.depth - callee.inputs + callee.outputs } :=
    same.recount (by omega)
  unfold callEffect
  split at final
  · next throws =>
    replace final := tail_of final rfl
    dsimp only at final
    split at final
    · next autoTry =>
      have tried : d3.word.signature.autoTry = true := same.signature ▸ autoTry
      rw [throws, tried, if_neg (by simp)]
      exact counted.trans (raiseIfNonzero_shapes reg _ _ _ final).counted
    · next exposed =>
      have tried : d3.word.signature.autoTry = false :=
        Bool.eq_false_iff.2 fun tried => exposed (same.signature.symm ▸ tried)
      rw [throws, tried, if_pos (by simp)]
      exact counted.trans (exposeError_counts reg _ _ _ final)
  · next silent =>
    cases final
    rw [Bool.eq_false_iff.2 silent, if_neg (by simp), Int.add_zero]
    exact counted

theorem inlineBody_counts {callee : Entry} {body : List InstrWord}
    (ok : inlineBody callee body settings d = .ok () d') :
    d.word.Counted ((callee.outputs : Int) - callee.inputs) d'.word := by
  obtain ⟨_, d3, checked, following⟩ := bind_ok.1 (tail_of (tail_of ok rfl :) rfl :)
  obtain ⟨enough, rfl⟩ := checkArity_ok checked
  obtain ⟨_, d4, clobbered, last⟩ := bind_ok.1 following
  obtain ⟨_, d5, emitted, counted⟩ := bind_ok.1 last
  cases counted
  obtain rfl := emitWords_ok emitted
  exact (shaping.clobber _ _ _ _ clobbered).recount (by omega)

theorem recurse_counts (ok : recurse settings d = .ok () d') :
    d.word.Counted ((d.word.signature.outputs : Int) - d.word.signature.inputs) d'.word := by
  obtain ⟨_, d3, checked, following⟩ := bind_ok.1 (tail_of (tail_of ok rfl :) rfl :)
  obtain ⟨enough, rfl⟩ := checkArity_ok checked
  obtain ⟨_, d4, clobbered, rest⟩ := bind_ok.1 following
  obtain ⟨_, d5, called, rest⟩ := bind_ok.1 rest
  obtain ⟨_, d6, checks, rest⟩ := bind_ok.1 rest
  obtain ⟨_, d7, noted, counted⟩ := bind_ok.1 rest
  cases counted
  have same := (((shaping.clobber _ _ _ _ clobbered).trans (emitWord_shapes _ _ _ _ called)).trans
    (emitWord_shapes _ _ _ _ checks)).trans (sameShape_overlooks.pushPatch _ _ _ _ noted)
  exact ⟨by dsimp only; omega, same.control, same.unreachable, same.signature⟩

/-! ## Branches -/

/-- How many values are there at the end, if control comes to it. -/
def endDepth? (w : Definition) : Option Nat := if w.unreachable then none else some w.depth

theorem ifPart_ok (ok : ifPart settings d = .ok () d') :
    ∃ branch reg, 0 < d.word.depth ∧ d'.word.depth = d.word.depth - 1 ∧
      d'.word.control = .ifPart branch reg (d.word.depth - 1) :: d.word.control ∧
      d'.word.unreachable = d.word.unreachable ∧ d'.word.signature = d.word.signature := by
  obtain ⟨reg, d1, consumed, rest⟩ := bind_ok.1 ok
  obtain ⟨_, d2, barred, rest⟩ := bind_ok.1 rest
  obtain ⟨branch, d3, placed, noted⟩ := bind_ok.1 rest
  cases noted
  obtain ⟨positive, counted⟩ := consume_counts consumed
  have same := (sameShape_overlooks.spill _ _ _ _ barred).trans (emitWord_shapes _ _ _ _ placed)
  have depth : d3.word.depth = d.word.depth - 1 := by
    have := counted.depth
    have := same.depth
    omega
  refine ⟨branch, reg, positive, depth, ?_, same.unreachable.trans counted.unreachable,
    same.signature.trans counted.signature⟩
  show ControlFrame.ifPart branch reg d3.word.depth :: d3.word.control = _
  rw [depth, same.control, counted.control]

theorem elsePart_ok (ok : elsePart settings d = .ok () d') :
    ∃ branch reg depth outer skip, d.word.control = .ifPart branch reg depth :: outer ∧
      d'.word.control = .elsePart skip depth (endDepth? d.word) :: outer ∧ d'.word.depth = depth ∧
      d'.word.unreachable = false ∧ d'.word.signature = d.word.signature := by
  have rest := tail_of ok rfl
  cases control : d.word.control with
  | nil =>
    rw [control] at rest
    cases rest
  | cons frame outer =>
    cases frame with
    | elsePart skip depth trueDepth =>
      rw [control] at rest
      cases rest
    | ifPart branch reg depth =>
      rw [control] at rest
      obtain ⟨_, d2, barred, rest⟩ := bind_ok.1 (tail_of rest rfl :)
      obtain ⟨skip, d4, placed, rest⟩ := bind_ok.1 (tail_of rest rfl :)
      obtain ⟨jump, -, last⟩ := assembled_bind (tail_of rest rfl :)
      have noted := patch_bind last
      cases noted
      have barred := sameShape_overlooks.spill _ _ _ _ barred
      have same := barred.trans (emitWord_shapes _ _ _ _ placed)
      refine ⟨branch, reg, depth, outer, skip, rfl, ?_, rfl, rfl, same.signature⟩
      show ControlFrame.elsePart skip depth _ :: d4.word.control = _
      rw [same.control, barred.unreachable, barred.depth]
      rfl

/-- How many values come to the end of a branch on its other path, if control comes that way. -/
def otherDepth? : ControlFrame → Option Nat
  | .ifPart _ _ depth => some depth
  | .elsePart _ _ trueDepth => trueDepth

/-- The paths with `first` and `second` values meet in `w`. -/
def Meets (first second : Option Nat) (w : Definition) : Prop :=
  ∀ depth, first = some depth ∨ second = some depth → w.unreachable = false ∧ w.depth = depth

theorem join_meets {first second : Option Nat} (ok : join first second settings d = .ok () d') :
    d'.word.control = d.word.control ∧ d'.word.signature = d.word.signature ∧
      Meets first second d'.word := by
  rcases join_ok ok with ⟨depth, one, other, rfl⟩ | ⟨rfl, rfl, rfl⟩
  · refine ⟨rfl, rfl, fun n known => ⟨rfl, ?_⟩⟩
    show depth = n
    rcases known with rfl | rfl
    · rcases one with none | same
      · cases none
      · exact (Option.some.inj same).symm
    · rcases other with none | same
      · cases none
      · exact (Option.some.inj same).symm
  · exact ⟨rfl, rfl, fun _ known => nomatch known⟩

theorem thenPart_ok (ok : thenPart settings d = .ok () d') :
    ∃ frame outer, d.word.control = frame :: outer ∧ d'.word.control = outer ∧
      d'.word.signature = d.word.signature ∧
      Meets (endDepth? d.word) (otherDepth? frame) d'.word := by
  have rest := tail_of ok rfl
  cases control : d.word.control with
  | nil =>
    rw [control] at rest
    cases rest
  | cons frame outer =>
    rw [control] at rest
    obtain ⟨_, d2, barred, rest⟩ := bind_ok.1 (tail_of rest rfl :)
    replace rest := tail_of (tail_of rest rfl :) rfl
    have barred := sameShape_overlooks.spill _ _ _ _ barred
    have ends : (if d2.word.unreachable = true then none else some d2.word.depth) =
        endDepth? d.word := by
      rw [barred.unreachable, barred.depth]
      rfl
    cases frame with
    | ifPart | elsePart =>
      obtain ⟨jump, -, last⟩ := assembled_bind rest
      have joined := patch_bind last
      obtain ⟨control', signature, meets⟩ := join_meets joined
      rw [ends] at meets
      refine ⟨_, outer, rfl, control'.trans barred.control, signature.trans barred.signature, ?_⟩
      first | exact meets | exact fun n known => meets n known.symm

theorem exit_ok (ok : exit settings d = .ok () d') :
    (d.word.unreachable = false → d.word.depth = d.word.signature.outputs) ∧
      d'.word.control = d.word.control ∧ d'.word.unreachable = true ∧
      d'.word.signature = d.word.signature := by
  have rest := tail_of ok rfl
  dsimp only at rest
  split at rest
  · next allowed =>
    obtain ⟨_, d2, placed, rest⟩ := bind_ok.1 rest
    obtain ⟨_, d3, noted, left⟩ := bind_ok.1 rest
    cases left
    have same :=
      (emitWord_shapes _ _ _ _ placed).trans (sameShape_overlooks.pushPatch _ _ _ _ noted)
    refine ⟨fun reached => ?_, same.control, rfl, same.signature⟩
    simpa [reached] using allowed
  · cases rest

end Emit

/-! ## Ways -/

/-- An operation that opens, closes or leaves no branch. -/
def Operation.isPlain : Operation → Bool
  | .ifPart | .elsePart | .thenPart | .exit => false
  | _ => true

/-- One way through a definition, up to some operation. -/
inductive Way where
  /-- It gets there with `depth` values. -/
  | running (depth : Int)
  /-- It has passed over code since a test, or since the end of a true part, with `depth` values.
  It goes on behind the next `else` (if `toElse`) or `then` that belongs to no `if` in between, of
  which `nested` are still open. -/
  | skipping (toElse : Bool) (nested : Nat) (depth : Int)
  /-- It has left the word early with `depth` values. -/
  | returned (depth : Int)
  deriving DecidableEq

namespace Way

/-- How a way may go on through an operation that leaves `effect` more values. -/
def next (op : Operation) (effect : Int) : Way → List Way
  | running depth =>
    match op with
    | .ifPart => [running (depth + effect), skipping true 0 (depth + effect)]
    | .elsePart => [skipping false 0 depth]
    | .exit => [returned depth]
    | _ => [running (depth + effect)]
  | skipping toElse nested depth =>
    match op, nested with
    | .ifPart, _ => [skipping toElse (nested + 1) depth]
    | .elsePart, 0 => if toElse then [running depth] else [skipping toElse 0 depth]
    | .thenPart, 0 => [running depth]
    | .thenPart, outer + 1 => [skipping toElse outer depth]
    | _, _ => [skipping toElse nested depth]
  | returned depth => [returned depth]

/-- The definition `w` has the count of a way that runs, and its open branches that of one that
skips. -/
def Agrees (w : Definition) : Way → Prop
  | running depth => w.unreachable = false ∧ w.depth = depth
  | skipping true nested depth =>
    ∃ branch reg n, w.control[nested]? = some (.ifPart branch reg n) ∧ (n : Int) = depth
  | skipping false nested depth =>
    ∃ skip before n, w.control[nested]? = some (.elsePart skip before (some n)) ∧ (n : Int) = depth
  | returned depth => w.signature.outputs = depth

variable {w w' : Definition} {way after : Way} {k : Int}

theorem Agrees.returned {depth : Int} (agrees : (returned depth).Agrees w)
    (signature : w'.signature = w.signature) : (Way.returned depth).Agrees w' := by
  unfold Agrees at agrees ⊢
  rw [signature, agrees]

/-- A plain operation has its effect on a way that runs through it. -/
theorem Agrees.plain {op : Operation} (plain : op.isPlain = true) (counted : w.Counted k w')
    (agrees : way.Agrees w) (onward : after ∈ way.next op k) : after.Agrees w' := by
  cases way with
  | running depth =>
    obtain rfl : after = running (depth + k) := by
      cases op <;> first | exact List.mem_singleton.1 onward | cases plain
    exact ⟨counted.unreachable.trans agrees.1, counted.depth.trans (by rw [agrees.2])⟩
  | skipping toElse nested depth =>
    obtain rfl : after = skipping toElse nested depth := by
      cases op <;> first | exact List.mem_singleton.1 onward | cases plain
    cases toElse <;> simpa only [Agrees, counted.control] using agrees
  | returned depth =>
    obtain rfl := List.mem_singleton.1 onward
    exact agrees.returned counted.signature

/-- One more branch is open. -/
theorem Agrees.cons {toElse : Bool} {nested : Nat} {depth : Int} {frame : ControlFrame}
    (agrees : (skipping toElse nested depth).Agrees w) (control : w'.control = frame :: w.control) :
    (skipping toElse (nested + 1) depth).Agrees w' := by
  cases toElse <;> simpa only [Agrees, control, List.getElem?_cons_succ] using agrees

/-- The innermost branch, which does not end what is passed over, is replaced or closed. -/
theorem Agrees.tail {toElse : Bool} {nested : Nat} {depth : Int} {frame : ControlFrame}
    {outer : List ControlFrame} (agrees : (skipping toElse (nested + 1) depth).Agrees w)
    (control : w.control = frame :: outer) (closed : w'.control = outer) :
    (skipping toElse nested depth).Agrees w' := by
  cases toElse <;> simpa only [Agrees, control, closed, List.getElem?_cons_succ] using agrees

variable {settings : Settings} {heap : CodeHeap} {d : Draft}

/-- A test parts a way in two. -/
theorem Agrees.ifPart (agrees : way.Agrees w) (done : Emit.ifPart settings ⟨heap, w⟩ = .ok () d)
    (onward : after ∈ way.next .ifPart (-1)) : after.Agrees d.word := by
  obtain ⟨branch, reg, positive, depth, control, unreachable, signature⟩ := Emit.ifPart_ok done
  cases way with
  | running n =>
    obtain ⟨reached, rfl⟩ := agrees
    have fewer : ((w.depth - 1 : Nat) : Int) = w.depth + -1 := by
      have : 0 < w.depth := positive
      omega
    rcases List.mem_cons.1 onward with rfl | onward
    · exact ⟨unreachable.trans reached, by rw [depth, fewer]⟩
    · obtain rfl := List.mem_singleton.1 onward
      exact ⟨branch, reg, w.depth - 1, by rw [control]; rfl, fewer⟩
  | skipping toElse nested n =>
    obtain rfl := List.mem_singleton.1 onward
    exact agrees.cons control
  | returned n =>
    obtain rfl := List.mem_singleton.1 onward
    exact agrees.returned signature

/-- The ways through the true part pass over the false part, where the others go on. -/
theorem Agrees.elsePart (agrees : way.Agrees w) (done : Emit.elsePart settings ⟨heap, w⟩ = .ok () d)
    (onward : after ∈ way.next .elsePart k) : after.Agrees d.word := by
  obtain ⟨branch, reg, depth, outer, skip, control, control', depth', unreachable, signature⟩ :=
    Emit.elsePart_ok done
  cases way with
  | running n =>
    obtain ⟨reached, rfl⟩ := agrees
    obtain rfl := List.mem_singleton.1 onward
    refine ⟨skip, depth, w.depth, ?_, rfl⟩
    rw [control', Emit.endDepth?, reached]
    rfl
  | skipping toElse nested n =>
    cases nested with
    | zero =>
      cases toElse with
      | true =>
        obtain rfl := List.mem_singleton.1 onward
        obtain ⟨branch', reg', m, same, rfl⟩ := agrees
        rw [control] at same
        cases same
        exact ⟨unreachable, by rw [depth']⟩
      | false =>
        obtain ⟨skip', before, m, same, -⟩ := agrees
        rw [control] at same
        cases same
    | succ nested =>
      obtain rfl := List.mem_singleton.1 onward
      have inner : (Way.skipping toElse nested n).Agrees { w with control := outer } :=
        agrees.tail control rfl
      exact inner.cons control'
  | returned n =>
    obtain rfl := List.mem_singleton.1 onward
    exact agrees.returned signature

/-- Ways meet with the same number of values. -/
theorem Agrees.thenPart (agrees : way.Agrees w) (done : Emit.thenPart settings ⟨heap, w⟩ = .ok () d)
    (onward : after ∈ way.next .thenPart 0) : after.Agrees d.word := by
  obtain ⟨frame, outer, control, control', signature, meets⟩ := Emit.thenPart_ok done
  have met : ∀ m : Nat, Emit.endDepth? w = some m ∨ Emit.otherDepth? frame = some m →
      (Way.running m).Agrees d.word := fun m known =>
    ⟨(meets m known).1, by rw [(meets m known).2]⟩
  cases way with
  | running n =>
    obtain ⟨reached, rfl⟩ := agrees
    obtain rfl := List.mem_singleton.1 onward
    rw [Int.add_zero]
    refine met w.depth (Or.inl ?_)
    rw [Emit.endDepth?, reached]
    rfl
  | skipping toElse nested n =>
    cases nested with
    | zero =>
      obtain rfl := List.mem_singleton.1 onward
      cases toElse with
      | true | false =>
        obtain ⟨_, _, m, same, rfl⟩ := agrees
        rw [control] at same
        cases same
        exact met m (Or.inr rfl)
    | succ nested =>
      obtain rfl := List.mem_singleton.1 onward
      exact agrees.tail control control'
  | returned n =>
    obtain rfl := List.mem_singleton.1 onward
    exact agrees.returned signature

/-- A way that leaves the word early has its results. -/
theorem Agrees.exit (agrees : way.Agrees w) (done : Emit.exit settings ⟨heap, w⟩ = .ok () d)
    (onward : after ∈ way.next .exit k) : after.Agrees d.word := by
  obtain ⟨balanced, control, -, signature⟩ := Emit.exit_ok done
  cases way with
  | running n =>
    obtain ⟨reached, rfl⟩ := agrees
    obtain rfl := List.mem_singleton.1 onward
    show (d.word.signature.outputs : Int) = w.depth
    rw [signature, balanced reached]
  | skipping toElse nested n =>
    obtain rfl := List.mem_singleton.1 onward
    cases toElse <;> simpa only [Way.Agrees, control] using agrees
  | returned n =>
    obtain rfl := List.mem_singleton.1 onward
    exact agrees.returned signature

/-- At the end of a definition with no open branch every way has the declared number of values. -/
theorem Agrees.ended (agrees : way.Agrees w) (control : w.control = [])
    (balanced : w.unreachable = true ∨ w.depth = w.signature.outputs) :
    way = .running w.signature.outputs ∨ way = .returned w.signature.outputs := by
  cases way with
  | running n =>
    obtain ⟨reached, rfl⟩ := agrees
    rcases balanced with unreached | balanced
    · cases reached.symm.trans unreached
    · rw [balanced]
      exact Or.inl rfl
  | skipping toElse nested n =>
    cases toElse with
    | true =>
      obtain ⟨branch, reg, m, found, -⟩ := agrees
      rw [control] at found
      cases found
    | false =>
      obtain ⟨skip, before, m, found, -⟩ := agrees
      rw [control] at found
      cases found
  | returned n =>
    unfold Agrees at agrees
    rw [← agrees]
    exact Or.inr rfl

end Way

namespace Compiler

variable {c c' : Compiler} {w : Definition}

/-- How many values more an operation leaves. -/
def effect (c : Compiler) (op : Operation) : Int :=
  match c.definition with
  | none => 0
  | some w =>
    let called (id : EntryId) : Int :=
      ((c.dictionary.get? id).map (Emit.callEffect w.signature.autoTry)).getD 0
    match op with
    | .literal _ | .getLocal _ => 1
    | .string _ => 2
    | .setLocal _ | .raise | .ifPart => -1
    | .recurse => (w.signature.outputs : Int) - w.signature.inputs
    | .call id | .inlineCall id => called id
    | .word name =>
      if (w.locals.find? name).isSome then 1 else ((c.dictionary.lookup? name).map called).getD 0
    | _ => 0

theorem emitting_counted {action : Emit Unit} {k : Int} (isOpen : c.definition = some w)
    (counts : ∀ d', action c.settings ⟨c.heap, w⟩ = .ok () d' → w.Counted k d'.word)
    (ok : emitting action c = .ok () c') :
    ∃ w', c'.definition = some w' ∧ w.Counted k w' := by
  obtain ⟨w0, d, isOpen0, done, rfl⟩ := emitting_ok ok
  obtain rfl := Option.some.inj (isOpen.symm.trans isOpen0)
  exact ⟨d.word, rfl, counts d done⟩

variable {id : EntryId}

theorem recorded_counted {action : Emit Unit} {k : Int} (isOpen : c.definition = some w)
    (counts : ∀ d', action c.settings ⟨c.heap, w⟩ = .ok () d' → w.Counted k d'.word)
    (ok : (do emitting action; recordCall id : CompileM Unit) c = .ok () c') :
    ∃ w', c'.definition = some w' ∧ w.Counted k w' := by
  obtain ⟨_, c1, emitted, rest⟩ := bind_eq_ok.1 ok
  obtain ⟨w', isOpen', counted⟩ := emitting_counted isOpen counts emitted
  obtain ⟨w'', c2, got, recorded⟩ := bind_eq_ok.1 rest
  obtain ⟨rfl, -⟩ := active_ok got
  cases recorded
  exact ⟨w', isOpen', counted⟩

theorem inlineCall_counted (isOpen : c.definition = some w) (ok : inlineCall id c = .ok () c') :
    ∃ e w', c.dictionary.get? id = some e ∧ c'.definition = some w' ∧
      w.Counted (Emit.callEffect w.signature.autoTry e) w' := by
  obtain ⟨callee, c1, prepared, rest⟩ := bind_eq_ok.1 ok
  obtain ⟨-, heap, -, -, found, -, -, rfl⟩ := prepareCallee_ok prepared
  cases compiled : callee.compiled? with
  | none =>
    rw [compiled] at rest
    cases rest
  | some code =>
    rw [compiled] at rest
    dsimp only at rest
    cases refusal : code.inlineRefusal? callee.flags.throws with
    | some why =>
      rw [refusal] at rest
      cases rest
    | none =>
      rw [refusal] at rest
      dsimp only at rest
      rw [bind_get] at rest
      -- A word that may leave an error code is never copied.
      have silent : callee.flags.throws = false := by
        unfold CompiledWord.inlineRefusal? at refusal
        grind
      have effect : Emit.callEffect w.signature.autoTry callee =
          (callee.outputs : Int) - callee.inputs := by
        rw [Emit.callEffect, silent, if_neg (by simp), Int.add_zero]
      obtain ⟨w', isOpen', counted⟩ := recorded_counted (c := { c with heap }) isOpen
        (fun d' done => Emit.inlineBody_counts done) rest
      exact ⟨callee, w', found, isOpen', effect ▸ counted⟩

/-- A call has the effect of its callee, whether it is compiled as a branch or as a copy. -/
theorem call_counted (isOpen : c.definition = some w) (ok : call id c = .ok () c') :
    ∃ e w', c.dictionary.get? id = some e ∧ c'.definition = some w' ∧
      w.Counted (Emit.callEffect w.signature.autoTry e) w' := by
  obtain ⟨callee, c1, prepared, rest⟩ := bind_eq_ok.1 ok
  obtain ⟨-, heap, -, -, found, -, -, rfl⟩ := prepareCallee_ok prepared
  rw [bind_get] at rest
  split at rest
  · exact inlineCall_counted (c := { c with heap }) isOpen rest
  · obtain ⟨w', isOpen', counted⟩ := recorded_counted (c := { c with heap }) isOpen
      (fun d' done => Emit.call_counts done) rest
    exact ⟨callee, w', found, isOpen', counted⟩

/-- Plain operations have their effect and nothing else. -/
theorem operation_counted {op : Operation} (isOpen : c.definition = some w)
    (inBody : op.inBody = true) (plain : op.isPlain = true) (ok : op.run c = .ok () c') :
    ∃ w', c'.definition = some w' ∧ w.Counted (c.effect op) w' := by
  have still : Does (fun _ => True) op.run Still → ∃ w', c'.definition = some w' ∧
      w.Counted 0 w' := by
    intro does
    obtain ⟨_, acted, rfl, -⟩ := does.of_ok ok
    exact ⟨w, acted.still.1.trans isOpen, (Definition.SameShape.refl w).counted⟩
  unfold effect
  rw [isOpen]
  dsimp only
  cases op with
  | literal value =>
    exact emitting_counted isOpen (fun d' => Emit.literal_counts value ⟨c.heap, w⟩ () d') ok
  | string text =>
    obtain ⟨_, c1, got, rest⟩ := bind_eq_ok.1 ok
    obtain ⟨rfl, -⟩ := active_ok got
    obtain ⟨address, c2, stored, rest⟩ := bind_eq_ok.1 rest
    obtain ⟨heap, -, rfl⟩ := onHeap_inv stored
    obtain ⟨_, c3, first, second⟩ := bind_eq_ok.1 rest
    obtain ⟨w1, isOpen1, counted1⟩ := emitting_counted (c := { c1 with heap }) isOpen
      (fun d' => Emit.literal_counts _ ⟨heap, w⟩ () d') first
    obtain ⟨w2, isOpen2, counted2⟩ := emitting_counted isOpen1
      (fun d' => Emit.literal_counts _ ⟨c3.heap, w1⟩ () d') second
    exact ⟨w2, isOpen2, counted1.trans counted2⟩
  | setLocal name =>
    exact emitting_counted isOpen (fun d' => Emit.setLocal_counts name ⟨c.heap, w⟩ () d') ok
  | getLocal name =>
    exact emitting_counted isOpen (fun d' => Emit.getLocalCalled_counts name ⟨c.heap, w⟩ () d') ok
  | word name =>
    obtain ⟨w0, c1, got, rest⟩ := bind_eq_ok.1 ok
    obtain ⟨rfl, isOpen0⟩ := active_ok got
    obtain rfl := Option.some.inj (isOpen.symm.trans isOpen0)
    dsimp only at rest ⊢
    split at rest
    · next isLocal =>
      rw [if_pos isLocal]
      exact emitting_counted isOpen (fun d' => Emit.getLocalCalled_counts name ⟨c1.heap, w⟩ () d')
        rest
    · next other =>
      obtain ⟨id, c2, known, called⟩ := bind_eq_ok.1 rest
      obtain ⟨rfl, bound⟩ := find_ok known
      obtain ⟨e, w', found, isOpen', counted⟩ := call_counted isOpen called
      rw [if_neg other, bound, Option.map_some, Option.getD_some, found]
      exact ⟨w', isOpen', counted⟩
  | instruction v clobbers =>
    obtain ⟨n, c1, emitted, rest⟩ := bind_eq_ok.1 ok
    cases rest
    obtain ⟨w0, d, isOpen0, done, rfl⟩ := emitting_ok emitted
    obtain rfl := Option.some.inj (isOpen.symm.trans isOpen0)
    exact ⟨d.word, rfl, (Emit.instruction_shapes v clobbers _ _ _ done).counted⟩
  | call id =>
    obtain ⟨e, w', found, isOpen', counted⟩ := call_counted isOpen ok
    dsimp only
    rw [found]
    exact ⟨w', isOpen', counted⟩
  | inlineCall id =>
    obtain ⟨e, w', found, isOpen', counted⟩ := inlineCall_counted isOpen ok
    dsimp only
    rw [found]
    exact ⟨w', isOpen', counted⟩
  | raise => exact emitting_counted isOpen (fun d' => Emit.raise_counts ⟨c.heap, w⟩ () d') ok
  | recurse =>
    obtain ⟨_, c1, emitted, rest⟩ := bind_eq_ok.1 ok
    obtain ⟨w', isOpen', counted⟩ := emitting_counted isOpen
      (fun d' done => Emit.recurse_counts done) emitted
    obtain ⟨w'', c2, got, recorded⟩ := bind_eq_ok.1 rest
    obtain ⟨rfl, -⟩ := active_ok got
    cases recorded
    exact ⟨w', isOpen', counted⟩
  | allocateCells cells => exact still (.ignore (.allocateCells cells))
  | entryAddress id => exact still (.ignore (.entryAddress id))
  | epilogueAddress id => exact still (.ignore (.epilogueAddress id))
  | refuse refusals => exact still (.refuse refusals)
  | ifPart | elsePart | thenPart | exit => cases plain
  | beginWord | endWord | abandonWord | definePrimitive | bindExternal | resolveExternal | invoke =>
    cases inBody

/-- Whatever an operation does, the definition agrees with the ways that go on through it. -/
theorem agrees_next {op : Operation} (isOpen : c.definition = some w) (inBody : op.inBody = true)
    (ok : op.run c = .ok () c') :
    ∃ w', c'.definition = some w' ∧ w'.signature = w.signature ∧
      ∀ way : Way, way.Agrees w → ∀ after ∈ way.next op (c.effect op), after.Agrees w' := by
  have branch : ∀ {action : Emit Unit}, emitting action c = .ok () c' →
      ∃ d, c'.definition = some d.word ∧ action c.settings ⟨c.heap, w⟩ = .ok () d := by
    intro action emitted
    obtain ⟨w0, d, isOpen0, done, rfl⟩ := emitting_ok emitted
    obtain rfl := Option.some.inj (isOpen.symm.trans isOpen0)
    exact ⟨d, rfl, done⟩
  cases plain : op.isPlain with
  | true =>
    obtain ⟨w', isOpen', counted⟩ := operation_counted isOpen inBody plain ok
    exact ⟨w', isOpen', counted.signature, fun way agrees after => agrees.plain plain counted⟩
  | false =>
    cases op with
    | ifPart =>
      obtain ⟨d, isOpen', done⟩ := branch ok
      have effect : c.effect .ifPart = -1 := by
        unfold Compiler.effect
        rw [isOpen]
      obtain ⟨_, _, _, _, _, _, signature⟩ := Emit.ifPart_ok done
      exact ⟨d.word, isOpen', signature, fun way agrees after onward =>
        agrees.ifPart done (effect ▸ onward)⟩
    | elsePart =>
      obtain ⟨d, isOpen', done⟩ := branch ok
      obtain ⟨_, _, _, _, _, _, _, _, _, signature⟩ := Emit.elsePart_ok done
      exact ⟨d.word, isOpen', signature, fun way agrees after => agrees.elsePart done⟩
    | thenPart =>
      obtain ⟨d, isOpen', done⟩ := branch ok
      have effect : c.effect .thenPart = 0 := by
        unfold Compiler.effect
        rw [isOpen]
      obtain ⟨_, _, _, _, signature, _⟩ := Emit.thenPart_ok done
      exact ⟨d.word, isOpen', signature, fun way agrees after onward =>
        agrees.thenPart done (effect ▸ onward)⟩
    | exit =>
      obtain ⟨d, isOpen', done⟩ := branch ok
      obtain ⟨_, _, _, signature⟩ := Emit.exit_ok done
      exact ⟨d.word, isOpen', signature, fun way agrees after => agrees.exit done⟩
    | _ => cases plain

/-- A word that can be ended has no open branch, and as many values as declared. -/
theorem endWord_balanced (isOpen : c.definition = some w) (ok : endWord c = .ok id c') :
    w.control = [] ∧ (w.unreachable = true ∨ w.depth = w.signature.outputs) := by
  obtain ⟨_, _, _, _, emitted, -, -⟩ := finishWord_ok (endWord_finished isOpen ok)
  obtain ⟨w0, d, isOpen0, done, -⟩ := emitting_ok emitted
  obtain rfl := Option.some.inj (isOpen.symm.trans isOpen0)
  obtain ⟨laid, d1, laidOut, -⟩ := Emit.bind_ok.1 done
  obtain ⟨_, d2, checked, -⟩ := Emit.bind_ok.1 laidOut
  exact (Emit.checkFinished_ok checked).2

end Compiler

end ForthJit
