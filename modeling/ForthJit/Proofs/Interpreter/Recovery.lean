import ForthJit.CommandLine.Session
import ForthJit.Proofs.Compiler.Tiling

/-!
# Recovery from errors

Whatever a token does, the compiler sees only public operations (`Interpreter.take_steps`), and the
checkpoint moves only where no form is half-read and no definition is open.  So the checkpoint is a
snapshot of the compiler as it was then, which is still current, and going back to it after an error
brings that compiler back: everything that was completed before is kept, and nothing of the failing
form is left.  A file that ends inside a form is no error, and leaves that form open.
-/

namespace ForthJit

namespace Compiler

variable {α β : Type} {b c : Compiler} {m : CompileM α}

/-- Whatever its outcome, `m` comes down to public operations. -/
def Amounts (m : CompileM α) : Prop :=
  ∀ c, ∃ ops : List Operation, stateAfter m c = ops.foldl after c

namespace Amounts

theorem bind {f : α → CompileM β} (first : Amounts m) (second : ∀ a, Amounts (f a)) :
    Amounts (m >>= f) := by
  intro c
  obtain ⟨ops, done⟩ := first c
  rw [stateAfter_bind]
  cases outcome : m c with
  | error e c' => exact ⟨ops, (stateAfter_of_error outcome).symm.trans done⟩
  | ok a c' =>
    obtain ⟨more, done'⟩ := second a c'
    refine ⟨ops ++ more, done'.trans ?_⟩
    rw [List.foldl_append, ← done, stateAfter_of_ok outcome]

theorem pure (a : α) : Amounts (pure a : CompileM α) := fun _ => ⟨[], rfl⟩

theorem operation (op : Operation) : Amounts op.run := fun _ => ⟨[op], rfl⟩

theorem of_ignored (ignored : Amounts (do let _ ← m : CompileM Unit)) : Amounts m := by
  intro c
  obtain ⟨ops, done⟩ := ignored c
  exact ⟨ops, (stateAfter_ignore m c).symm.trans done⟩

theorem beginWord (name : String) (signature : Signature) : Amounts (beginWord name signature) :=
  of_ignored (operation (.beginWord name signature))

theorem endWord : Amounts endWord := of_ignored (operation .endWord)

theorem allocateCells (cells : Nat) : Amounts (allocateCells cells) :=
  of_ignored (operation (.allocateCells cells))

theorem find (name : String) : Amounts (find name) := by
  intro c
  refine ⟨[], ?_⟩
  unfold Compiler.find stateAfter
  rw [bind_get]
  cases c.dictionary.lookup? name <;> rfl

end Amounts

/-- A run goes on with any operations. -/
theorem Run.operations {current : List Snapshot} {l : Records} (ops : List Operation)
    (run : Run False (fun _ _ => True) current l c) :
    ∃ l', Run False (fun _ _ => True) current l' (ops.foldl after c) := by
  induction ops generalizing l c with
  | nil => exact ⟨l, run⟩
  | cons op ops ih =>
    have obeys : op.Obeys fun _ _ => True := by cases op <;> simp [Operation.Obeys]
    exact ih (run.step op obeys False.elim)

theorem Follows.operations (follows : b.Follows c) (ops : List Operation) :
    b.Follows (ops.foldl Compiler.after c) :=
  List.foldlRecOn ops Compiler.after follows fun _ follows op _ => follows.after op

end Compiler

namespace Interpreter

variable {α : Type} {s s' : Interpreter}

/-! ## Single tokens -/

/-- From `s` to `s'` the compiler was used by public operations, and the checkpoint stayed. -/
structure Steps (s s' : Interpreter) : Prop where
  checkpoint : s'.checkpoint = s.checkpoint
  compiler : ∃ ops : List Operation, s'.compiler = ops.foldl Compiler.after s.compiler

theorem Steps.refl (s : Interpreter) : Steps s s := ⟨rfl, [], rfl⟩

theorem Steps.trans {s s' s'' : Interpreter} (first : Steps s s') (second : Steps s' s'') :
    Steps s s'' := by
  obtain ⟨kept, ops, done⟩ := first
  obtain ⟨kept', ops', done'⟩ := second
  refine ⟨kept'.trans kept, ops ++ ops', ?_⟩
  rw [done', done, List.foldl_append]

theorem onCompiler_steps {m : CompileM α} (amounts : Compiler.Amounts m) :
    Leaves Steps (onCompiler m) := by
  intro s
  obtain ⟨ops, done⟩ := amounts s.compiler
  obtain ⟨compiler, stack, pending, checkpoint, listing, output⟩ := s
  simp only [stateAfter, onCompiler] at done ⊢
  cases outcome : m compiler with
  | ok a c | error e c =>
    rw [outcome] at done
    exact ⟨rfl, ops, done⟩

theorem steps_bind {β : Type} {m : InterpretM α} {f : α → InterpretM β} (first : Leaves Steps m)
    (second : ∀ a, Leaves Steps (f a)) : Leaves Steps (m >>= f) :=
  Leaves.bind Steps.trans first second

theorem steps_pure (a : α) : Leaves Steps (pure a : InterpretM α) := Leaves.pure Steps.refl a

theorem steps_throw (e : InterpretError) : Leaves Steps (throw e : InterpretM α) :=
  Leaves.throw Steps.refl e

theorem steps_get : Leaves Steps (get : InterpretM Interpreter) := Leaves.get Steps.refl

theorem await_steps (pending : Pending) : Leaves Steps (await pending) := fun _ => ⟨rfl, [], rfl⟩

theorem print_steps (text : String) : Leaves Steps (print text) := fun _ => ⟨rfl, [], rfl⟩

theorem push_steps (value : Cell) : Leaves Steps (push value) := fun _ => ⟨rfl, [], rfl⟩

theorem nameAfter_steps (form word : String) : Leaves Steps (nameAfter form word) := by
  unfold nameAfter
  split
  · exact steps_throw _
  · exact steps_pure _

theorem operation_steps (op : Operation) : Leaves Steps (onCompiler op.run) :=
  onCompiler_steps (.operation op)

theorem closeComment_steps (target : Header) (items : List String) :
    Leaves Steps (closeComment target items) := by
  unfold closeComment
  split
  · exact steps_throw _
  · split
    · exact steps_bind (onCompiler_steps (.beginWord _ _)) fun _ => steps_pure _
    · exact steps_bind (onCompiler_steps (.of_ignored (.operation (.resolveExternal _ _ _))))
        fun _ => steps_pure _

theorem defineVariable_steps (name : String) : Leaves Steps (defineVariable name) :=
  onCompiler_steps (.bind (.allocateCells 1) fun address => .bind (.beginWord name _) fun _ =>
    .bind (.operation (.literal (BitVec.ofNat 64 address))) fun _ =>
      .bind .endWord fun _ => .pure _)

theorem lookup_steps (name : String) : Leaves Steps (lookup name) := onCompiler_steps (.find name)

theorem printListing_steps (id : EntryId) : Leaves Steps (printListing id) := by
  refine steps_bind steps_get fun s => ?_
  split
  · exact print_steps _
  · exact steps_pure _

theorem execute_steps (word : String) (id : EntryId) : Leaves Steps (execute word id) := by
  refine steps_bind steps_get fun s => ?_
  dsimp only
  have run : ∀ args inputs, Leaves Steps (do
      let results ← onCompiler (Compiler.invoke id args)
      modify fun s => { s with stack := results.reverse ++ s.stack.drop inputs }) :=
    fun args inputs => steps_bind
      (onCompiler_steps (.of_ignored (.operation (.invoke id args)))) fun _ _ => ⟨rfl, [], rfl⟩
  split
  · exact steps_throw _
  · exact run _ _

theorem compileToken_steps (word : String) : Leaves Steps (compileToken word) := by
  unfold compileToken
  split
  · refine steps_bind (onCompiler_steps .endWord) fun id => steps_bind steps_get fun s => ?_
    split
    · exact printListing_steps id
    · exact steps_pure _
  · exact await_steps _
  · exact await_steps _
  · exact operation_steps .ifPart
  · exact operation_steps .elsePart
  · exact operation_steps .thenPart
  · exact operation_steps .recurse
  · exact operation_steps .exit
  · exact operation_steps .raise
  all_goals try exact steps_throw _
  split
  · exact operation_steps (.literal _)
  · exact operation_steps (.word word)

theorem interpretToken_steps (word : String) : Leaves Steps (interpretToken word) := by
  unfold interpretToken
  split
  all_goals try exact await_steps _
  all_goals try exact steps_throw _
  · exact steps_bind steps_get fun s => print_steps _
  · exact steps_bind steps_get fun s => print_steps _
  · split
    · exact push_steps _
    · exact steps_bind (lookup_steps word) fun id => execute_steps word id

/-- Whatever a token does, the compiler sees only public operations. -/
theorem take_steps (word : String) : Leaves Steps (take word) := by
  refine steps_bind steps_get fun s => steps_bind (await_steps _) fun _ => ?_
  split
  · refine steps_bind steps_get fun s => ?_
    split
    · exact compileToken_steps word
    · exact interpretToken_steps word
  · exact steps_bind (nameAfter_steps _ _) fun name => await_steps _
  · exact steps_bind (nameAfter_steps _ _) fun name => await_steps _
  · split
    · exact await_steps _
    · exact steps_throw _
  · split
    · exact closeComment_steps _ _
    · exact await_steps _
  · split
    · exact steps_pure _
    · exact await_steps _
  · exact steps_bind (nameAfter_steps _ _) fun name => operation_steps (.setLocal name)
  · exact steps_bind (nameAfter_steps _ _) fun name => defineVariable_steps name
  · exact steps_bind (lookup_steps word) fun id => printListing_steps id

/-! ## Sessions -/

/-- The compiler after the last of `tokens` after which no form is half-read and no definition is
open, if they are fed to `s` up to the first error; `b` if there is none. -/
def lastSettled (b : Compiler) : List Token → Interpreter → Compiler
  | [], _ => b
  | token :: rest, s =>
    match feed token.text s with
    | .ok _ s' => lastSettled (if s'.isContinuing then b else s'.compiler) rest s'
    | .error _ _ => b

/-- Sources were run one after the other, whether they succeeded or failed, and `b` is the compiler
after the last token, in any of them, after which no form was half-read and no definition open.  The
compiler may have been used before, as long as no definition is open. -/
inductive Session : Compiler → Interpreter → Prop
  | start {current : List Snapshot} {l : Records} {c : Compiler} (listing : Bool) :
      Compiler.Run False (fun _ _ => True) current l c → c.definition = none →
      Session c (create c listing)
  | run {b : Compiler} {s : Interpreter} (source : String) (firstLine : Nat) : Session b s →
      Session (lastSettled b (Token.ofSource source firstLine) s)
        (stateAfter (run source firstLine) s)

/-- The checkpoint of `s` is that of `b`, where everything was published, and is still current. -/
structure Anchored (b : Compiler) (s : Interpreter) : Prop where
  start : b.Follows b
  idle : b.definition = none
  published : b.heap.published = b.heap.here
  follows : b.Follows s.compiler
  checkpoint : s.checkpoint = b.snapshot
  run : ∃ older l, Compiler.Run False (fun _ _ => True) (b.snapshot :: older) l s.compiler

variable {b : Compiler}

/-- Between forms a run can be gone back to. -/
theorem anchored_of_run {current : List Snapshot} {l : Records}
    (run : Compiler.Run False (fun _ _ => True) current l s.compiler)
    (idle : s.compiler.definition = none) (checkpoint : s.checkpoint = s.compiler.snapshot) :
    Anchored s.compiler s := by
  have built := run.built (fun _ _ _ _ => trivial) idle
  exact ⟨built.idle.follows, idle, built.tiled.published, built.idle.follows, checkpoint,
    current, l, run.snapshot idle⟩

theorem Anchored.steps (anchored : Anchored b s) (steps : Steps s s') : Anchored b s' := by
  obtain ⟨kept, ops, done⟩ := steps
  obtain ⟨older, l, run⟩ := anchored.run
  obtain ⟨l', run'⟩ := run.operations ops
  refine { anchored with
    follows := ?_
    checkpoint := kept.trans anchored.checkpoint
    run := ⟨older, l', ?_⟩ }
  · rw [done]
    exact anchored.follows.operations ops
  · rw [done]
    exact run'

/-- Where nothing is half-read, the interpreter settles on a new checkpoint. -/
theorem Anchored.settle (anchored : Anchored b s) :
    Anchored (if s.settle.isContinuing then b else s.settle.compiler) s.settle := by
  unfold Interpreter.settle
  cases continuing : s.isContinuing with
  | true => simpa [continuing] using anchored
  | false =>
    have settled : isContinuing { s with checkpoint := s.compiler.snapshot } = false := continuing
    have idle : s.compiler.definition = none := by
      unfold isContinuing at continuing
      simpa using (Bool.or_eq_false_iff.1 continuing).2
    obtain ⟨older, l, run⟩ := anchored.run
    simp only [settled, Bool.false_eq_true, if_false]
    exact anchored_of_run (s := { s with checkpoint := s.compiler.snapshot }) run idle rfl

theorem feed_cases (word : String) (s : Interpreter) :
    (∃ s1, take word s = .ok () s1 ∧ feed word s = .ok () s1.settle) ∨
      ∃ e s1, take word s = .error e s1 ∧ feed word s = .error e s1 := by
  unfold feed
  cases taken : take word s with
  | ok _ s1 =>
    refine Or.inl ⟨s1, rfl, ?_⟩
    rw [bind_of_ok taken]
    rfl
  | error e s1 => exact Or.inr ⟨e, s1, rfl, bind_of_error taken _⟩

/-- Tokens are fed from checkpoint to checkpoint. -/
theorem Anchored.feedAll (anchored : Anchored b s) (tokens : List Token) :
    Anchored (lastSettled b tokens s) (stateAfter (feedAll tokens) s) := by
  induction tokens generalizing b s with
  | nil => exact anchored
  | cons token rest ih =>
    have taken := anchored.steps (take_steps token.text s)
    unfold stateAfter at ih ⊢
    simp only [Interpreter.feedAll, lastSettled]
    rcases feed_cases token.text s with ⟨s1, ok, fed⟩ | ⟨e, s1, failed, fed⟩
    · rw [stateAfter_of_ok ok] at taken
      rw [fed]
      exact ih taken.settle
    · rw [stateAfter_of_error failed] at taken
      rw [fed]
      exact taken

/-- Going back to the checkpoint brings back the compiler as it was then. -/
theorem Anchored.recover (anchored : Anchored b s) (stack : List Cell) :
    Anchored b (s.recover stack) ∧ b.Restored (s.recover stack).compiler := by
  obtain ⟨older, l, run⟩ := anchored.run
  have restored := anchored.follows.restored anchored.start.dictionary
  have covered := anchored.start.heap.covered
  have run' : Compiler.Run False (fun _ _ => True) (b.snapshot :: older) l
      (s.compiler.restore b.snapshot) :=
    Compiler.RunWith.restore
      (show Compiler.Run _ _ ([] ++ b.snapshot :: older) l s.compiler from run)
  have compiler : (s.recover stack).compiler = s.compiler.restore b.snapshot :=
    congrArg s.compiler.restore anchored.checkpoint
  refine ⟨{ anchored with follows := ?_, run := ⟨older, l, ?_⟩ }, ?_⟩
  · rw [compiler]
    exact anchored.follows.restore (Nat.le_refl _) covered
  · rw [compiler]
    exact run'
  · rw [compiler]
    exact restored

theorem run_cases (source : String) (firstLine : Nat) (s : Interpreter) :
    (∃ s', feedAll (Token.ofSource source firstLine) s = .ok () s' ∧
        run source firstLine s = .ok () s') ∨
      ∃ e s', feedAll (Token.ofSource source firstLine) s = .error e s' ∧
        run source firstLine s = .error e (s'.recover s.stack) := by
  unfold run
  cases fed : feedAll (Token.ofSource source firstLine) s with
  | ok _ s' => exact Or.inl ⟨s', rfl, rfl⟩
  | error e s' => exact Or.inr ⟨e, s', rfl, rfl⟩

theorem Session.anchored (session : Session b s) : Anchored b s := by
  induction session with
  | start listing run idle => exact anchored_of_run (s := create _ listing) run idle rfl
  | @run b s source firstLine _ ih =>
    have fed := ih.feedAll (Token.ofSource source firstLine)
    rcases run_cases source firstLine s with ⟨s', ok, ran⟩ | ⟨e, s', failed, ran⟩
    · rw [stateAfter_of_ok ok] at fed
      rw [stateAfter_of_ok ran]
      exact fed
    · rw [stateAfter_of_error failed] at fed
      rw [stateAfter_of_error ran]
      exact (fed.recover s.stack).1

/-- A source that fails ends by going back to the checkpoint. -/
theorem run_failed {source : String} {firstLine : Nat} {e : Located} (anchored : Anchored b s)
    (failed : run source firstLine s = .error e s') :
    ∃ s1, Anchored (lastSettled b (Token.ofSource source firstLine) s) s1 ∧
      s' = s1.recover s.stack := by
  have fed := anchored.feedAll (Token.ofSource source firstLine)
  rcases run_cases source firstLine s with ⟨s1, -, ran⟩ | ⟨e1, s1, halted, ran⟩
  · cases ran.symm.trans failed
  · cases ran.symm.trans failed
    rw [stateAfter_of_error halted] at fed
    exact ⟨s1, fed, rfl⟩

/-- After an error no form is half-read and no definition is open, the stack is the one before the
source, and the compiler is as it was after the last token, of this source or an earlier one, after
which no form was half-read and no definition open. -/
theorem run_recovers {source : String} {firstLine : Nat} {e : Located} (session : Session b s)
    (failed : run source firstLine s = .error e s') :
    s'.pending = .nothing ∧ s'.compiler.definition = none ∧ s'.stack = s.stack ∧
      let settled := lastSettled b (Token.ofSource source firstLine) s
      settled.Restored s'.compiler ∧ s'.compiler.heap.published = settled.heap.published := by
  obtain ⟨s1, fed, rfl⟩ := run_failed session.anchored failed
  have restored := (fed.recover s.stack).2
  exact ⟨rfl, rfl, rfl, restored, restored.published fed.published⟩

/-- A function that has been found, a definition that is finished before the cut and the value it
left when it ran are kept; of the definition that spans the cut, nothing is left. -/
theorem run_recovers_across_sources :
    ∃ b s e s', Session b s ∧ s.pending = .signature (.definition "half") ["n"] ∧ s.stack = [5] ∧
      run "-- m ) 1 :" 2 s = .error e s' ∧ (e.line, e.column) = (2, 10) ∧
      ["labs", "one", "half"].map s'.compiler.dictionary.lookup? = [some 29, some 30, none] ∧
      s'.pending = .nothing ∧ s'.compiler.definition = none ∧ s'.stack = s.stack ∧
      let settled := lastSettled b (Token.ofSource "-- m ) 1 :" 2) s
      settled.Restored s'.compiler ∧ s'.compiler.heap.published = settled.heap.published := by
  let source := "extern labs ( n -- n ) : one ( -- n ) 1 ; one : half ( n"
  let host : Host :=
    { platform := { Platform.spaced with function? := ([("labs", 0x45678)].lookup ·) }
      executions := [{ cells := [5] }] }
  let s (c : Compiler) := stateAfter (run source 1) (create c false)
  have state : (Compiler.create host {}).toOption.bind (fun c =>
      (failure? (run "-- m ) 1 :" 2) (s c)).map fun r =>
        ((s c).pending, (s c).stack, (r.1.line, r.1.column),
          ["labs", "one", "half"].map r.2.compiler.dictionary.lookup?)) =
      some (.signature (.definition "half") ["n"], [5], (2, 10), [some 29, some 30, none]) := by
    decide +kernel
  obtain ⟨c, created, state⟩ := toOption_bind.1 state
  have session :=
    (Session.start false (.create created) (Compiler.create_idle created).definition).run
    source 1
  obtain ⟨e, s', failed, state⟩ := failure?_map.1 state
  simp only [Prod.mk.injEq] at state
  obtain ⟨pending, stack, ⟨line, column⟩, found⟩ := state
  exact ⟨_, s c, e, s', session, pending, stack, failed, Prod.ext line column, found,
    run_recovers session failed⟩

end Interpreter

/-! ## Files -/

namespace CommandLine.Session

/-- A file that fails between forms leaves a form half-read or a definition open exactly if its
source ran to the end.  Otherwise the stack is the one before the file, the compiler is as after the
last token after which no form was half-read and no definition open, and a file that could not be
read has changed nothing. -/
theorem failed_load_leaves {b : Compiler} {s s' : Session} {path : String} {contents : Contents}
    (session : Interpreter.Session b s.interpreter) (between : s.interpreter.isContinuing = false)
    (failed : s.load path contents = (false, s')) :
    (s'.interpreter.isContinuing = true ↔
      ∃ source, contents = .ok source ∧ s.interpreter.run source 1 = .ok () s'.interpreter) ∧
    (s'.interpreter.isContinuing = false →
      (∀ reason, contents = .error reason → s'.interpreter = s.interpreter) ∧
      ∀ source, contents = .ok source → s'.interpreter.stack = s.interpreter.stack ∧
        let settled := Interpreter.lastSettled b (Token.ofSource source 1) s.interpreter
        settled.Restored s'.interpreter.compiler ∧
          s'.interpreter.compiler.heap.published = settled.heap.published) := by
  unfold load at failed
  cases contents with
  | error reason =>
    cases failed
    exact ⟨iff_of_false (Bool.eq_false_iff.1 between) nofun, fun _ => ⟨fun _ _ => rfl, nofun⟩⟩
  | ok source =>
    dsimp only [interpret] at failed
    cases ran : s.interpreter.run source 1 with
    | ok _ t =>
      rw [ran] at failed
      dsimp only at failed
      split at failed
      · next leaks =>
        cases failed
        exact ⟨iff_of_true leaks ⟨source, rfl, ran⟩,
          fun settled => absurd leaks (Bool.eq_false_iff.1 settled)⟩
      · cases failed
    | error e t =>
      rw [ran] at failed
      cases failed
      obtain ⟨t, fed, rfl⟩ := Interpreter.run_failed session.anchored ran
      have restored := (fed.recover s.interpreter.stack).2
      refine ⟨iff_of_false nofun ?_, fun _ => ⟨nofun, ?_⟩⟩
      · rintro ⟨_, ⟨⟩, ok⟩
        cases ran.symm.trans ok
      · rintro _ ⟨⟩
        exact ⟨rfl, restored, restored.published fed.published⟩

/-- What can be computed holds of a session that has just started. -/
theorem exists_started {P : Session → Bool} (holds : (Compiler.create {} {}).toOption.any
      (fun c => P { interpreter := .create c false }) = true) :
    ∃ (b : Compiler) (s : Session), Interpreter.Session b s.interpreter ∧
      s.interpreter.isContinuing = false ∧ P s = true := by
  obtain ⟨c, created, holds⟩ := (Option.any_eq_true _ _).1 holds
  have created := except_toOption_eq_some.1 created
  have idle := (Compiler.create_idle created).definition
  refine ⟨c, _, .start false (.create created) idle, ?_, holds⟩
  simp [Interpreter.isContinuing, Interpreter.create, idle]

/-- Of a file that fails in its second definition, the first is kept. -/
theorem failed_load_leaves_first :
    ∃ (b : Compiler) (s s' : Session), Interpreter.Session b s.interpreter ∧
      s.interpreter.isContinuing = false ∧
      s.load "a" (.ok ": one ( -- n ) 1 ; : two ( -- n ) nosuch") = (false, s') ∧
      s'.interpreter.compiler.dictionary.lookup? "one" = some 29 ∧
      s'.interpreter.isContinuing = false ∧ s'.interpreter.stack = s.interpreter.stack := by
  obtain ⟨b, s, session, between, state⟩ := exists_started (P := fun s =>
    let loaded := s.load "a" (.ok ": one ( -- n ) 1 ; : two ( -- n ) nosuch")
    !loaded.1 && !loaded.2.interpreter.isContinuing &&
      loaded.2.interpreter.compiler.dictionary.lookup? "one" == some 29) (by decide +kernel)
  simp only [Bool.and_eq_true, Bool.not_eq_true', beq_iff_eq] at state
  obtain ⟨⟨failed, settled⟩, kept⟩ := state
  have left := (failed_load_leaves session between (Prod.ext failed rfl)).2 settled
  exact ⟨b, s, _, session, between, Prod.ext failed rfl, kept, settled, (left.2 _ rfl).1⟩

/-- A file that ends inside a definition makes the next one fail. -/
theorem unterminated_file_leaks :
    ∃ (b : Compiler) (s s' : Session), Interpreter.Session b s.interpreter ∧
      s.interpreter.isContinuing = false ∧ s.load "a" (.ok ": f ( -- n ) 1") = (false, s') ∧
      s'.interpreter.isContinuing = true ∧
      (s.load "b" (.ok ".s")).1 = true ∧ (s'.load "b" (.ok ".s")).1 = false := by
  obtain ⟨b, s, session, between, state⟩ := exists_started (P := fun s =>
    let loaded := s.load "a" (.ok ": f ( -- n ) 1")
    !loaded.1 && loaded.2.interpreter.isContinuing && (s.load "b" (.ok ".s")).1 &&
      !(loaded.2.load "b" (.ok ".s")).1) (by decide +kernel)
  simp only [Bool.and_eq_true, Bool.not_eq_true'] at state
  obtain ⟨⟨⟨failed, leaks⟩, alone⟩, after⟩ := state
  exact ⟨b, s, _, session, between, Prod.ext failed rfl, leaks, alone, after⟩

end CommandLine.Session

end ForthJit
