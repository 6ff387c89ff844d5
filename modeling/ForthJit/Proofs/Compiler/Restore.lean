import ForthJit.Proofs.Compiler.Session

/-!
# Restoring a snapshot

A snapshot holds only sizes, so restoring it can do no more than cut the dictionary and the heap
back to these sizes.  That this brings back the compiler as it was rests on `Compiler.Follows`: no
operation since then has changed an older entry, an older word or an older byte.

The published length is the one thing a snapshot does not hold.  It comes back if everything was
published when the snapshot was taken, and otherwise may have grown meanwhile.
-/

namespace ForthJit

variable {s : Settings} {host : Host}

theorem Settings.validate_ok {s' : Settings} (valid : s.validate = .ok s') : s' = s := by
  unfold validate at valid
  split at valid
  · cases valid
  · split at valid
    · cases valid
    · exact (Except.ok.inj valid).symm

namespace Compiler

variable {b c : Compiler}

/-! ## Reachable compilers -/

/-- A compiler that operations have made out of a new one.  Any snapshot may be restored at any
time, also one that is no longer of any use. -/
inductive Reachable : Compiler → Prop
  | create {host : Host} {s : Settings} {c : Compiler} : create host s = .ok c → Reachable c
  | step {c : Compiler} (op : Operation) : Reachable c → Reachable (c.after op)
  | restore {c : Compiler} (s : Snapshot) : Reachable c → Reachable (c.restore s)

/-- The compiler that has nothing yet. -/
def blank (c : Compiler) : Compiler :=
  { c with heap := c.heap.rewind ⟨0, 0, 0, 0⟩, dictionary := {}, definition := none }

theorem here_blank (c : Compiler) : c.blank.heap.here = 0 := by
  show (c.heap.staged.shrink 0).size = 0
  simp

theorem blank_covered (c : Compiler) (m : HeapMark) : c.blank.heap.CoveredBy m := by
  have unused : ∀ r : Region, (r.rewind 0).used = 0 := fun r => Nat.min_zero _
  refine ⟨?_, ?_, ?_, ?_⟩
  · rw [here_blank]
    exact Nat.zero_le _
  all_goals exact Nat.le_trans (Nat.le_of_eq (unused _)) (Nat.zero_le _)

/-- Whatever a compiler has, it has gained since it was blank. -/
theorem Follows.blank (follows : b.Follows c) : c.blank.Follows c := by
  have here := here_blank c
  have region : ∀ r : Region, (r.rewind 0).Extends r := fun r =>
    ⟨rfl, rfl, by simp [Region.rewind], fun i live => absurd live (by simp [Region.rewind])⟩
  have nothing : c.blank.heap.published = 0 := Nat.min_zero _
  refine ⟨⟨CodeHeap.rewind_consistent follows.heap.consistent _, ?_, follows.heap.consistent, ?_⟩,
    follows.dictionary, ⟨Nat.zero_le _, fun i low => absurd low (Nat.not_lt_zero i)⟩,
    fun w isOpen => ?_⟩
  · exact ⟨rfl, rfl, rfl, by omega, fun i live => by omega, fun i live => by omega,
      region _, region _, region _⟩
  · rw [here]
    exact ⟨Nat.zero_le _, fun i low => by omega⟩
  · exact { follows.definition w isOpen with
      entry := Nat.zero_le _
      entries := Nat.zero_le _
      mark := blank_covered c _
      slots := fun slot _ => by omega }

theorem keeps_forM {α : Type} {I : Compiler → Prop} {f : α → CompileM PUnit} {xs : List α}
    (each : ∀ x ∈ xs, Keeps I (f x) fun _ => True) : Keeps I (xs.forM f) fun _ => True := by
  induction xs with
  | nil => exact Keeps.pure trivial
  | cons x xs ih =>
    exact seq (each x List.mem_cons_self) fun _ =>
      ih fun y member => each y (List.mem_cons_of_mem _ member)

/-- The built-in words, in the order in which they enter the dictionary. -/
def builtIn : CompileM Unit := do
  Intrinsic.all.forM registerIntrinsic
  definePrimitives

theorem SessionInvariant.builtIn {may : Action → Prop} {I : Compiler → Prop}
    (inv : SessionInvariant may I) :
    Runs (fun c => I c ∧ c.definition = none) builtIn (fun _ c => I c) I := by
  have registered : Keeps (fun c => I c ∧ c.definition = none)
      (Intrinsic.all.forM registerIntrinsic) fun _ => True :=
    keeps_forM fun i _ c ⟨holds, idle⟩ => ⟨⟨inv.entered holds idle rfl rfl rfl rfl, idle⟩, trivial⟩
  have defined : Keeps I definePrimitives fun _ => True :=
    keeps_forM fun _ _ => ignore_keeps (inv.definePrimitive _ _ _ _ _)
  exact Runs.bind (registered.weaken (fun _ holds => holds) (fun _ _ holds => holds.1.1)
    fun _ holds => holds.1) fun _ =>
      defined.weaken (fun _ holds => holds) (fun _ _ holds => holds.1)
      fun _ holds => holds

/-- A compiler without any words. -/
def wordless (settings : Settings) (heap : CodeHeap) (stackCells thunk : Nat) : Compiler :=
  { settings, heap, dictionary := {}, stackCells, definition := none, thunk, redefinitions := #[] }

theorem startHeap_leaves (s : Settings) {n : Nat} : Leaves (CodeHeap.Grows n) (startHeap s) := by
  refine Leaves.bind CodeHeap.Grows.trans ?_ fun thunk =>
    Leaves.bind CodeHeap.Grows.trans ?_ fun _ => Leaves.pure CodeHeap.Grows.refl thunk
  · intro h
    simp only [stateAfter, Convention.emitThunk]
    cases s.convention.thunk with
    | error e => exact .refl h
    | ok code =>
      have emitted := CodeHeap.emitAll_leaves (n := n) (code.map Instruction.encode) h
      simp only [stateAfter] at emitted ⊢
      cases outcome : CodeHeap.emitAll (code.map Instruction.encode) h with
      | ok _ h' | error e h' =>
        rw [outcome] at emitted
        exact emitted
  · intro h
    have synced := CodeHeap.sync_leaves (n := n) h
    simp only [stateAfter] at synced ⊢
    cases outcome : CodeHeap.sync h with
    | ok _ h' | error e h' =>
      rw [outcome] at synced
      exact synced

/-- A new compiler is one without words on a new heap, after the built-in words. -/
theorem create_cases (created : create host s = .ok c) :
    ∃ (heap : CodeHeap) (host' : Host) (stackCells thunk : Nat) (heap' : CodeHeap),
      CodeHeap.create host s.layout = .ok heap ∧
      startHeap s (heap.logging [] host') = .ok thunk heap' ∧
      builtIn (wordless s heap' stackCells thunk) = .ok () c := by
  unfold create at created
  obtain ⟨s', valid, mapped⟩ := except_bind_eq_ok.1 created
  obtain rfl := Settings.validate_ok (except_mapError_eq_ok.1 valid)
  obtain ⟨heap, made, stacked⟩ := except_bind_eq_ok.1 mapped
  obtain ⟨⟨stackCells, host'⟩, -, start⟩ := except_bind_eq_ok.1 stacked
  dsimp only at start
  cases started : startHeap s' { heap with memory := { heap.memory with host := host' } } with
  | error e _ =>
    rw [started] at start
    cases start
  | ok thunk heap' =>
    rw [started] at start
    refine ⟨heap, host', stackCells, thunk, heap', except_mapError_eq_ok.1 made, started, ?_⟩
    dsimp only at start
    split at start
    next c' defined =>
      obtain rfl := Except.ok.inj start
      exact defined
    next => cases start

/-- The built-in words enter an empty dictionary on a consistent heap. -/
theorem create_builtIn (created : create host s = .ok c) :
    ∃ heap stackCells thunk, heap.Consistent ∧
      builtIn (wordless s heap stackCells thunk) = .ok () c := by
  obtain ⟨heap, host', stackCells, thunk, heap', made, started, defined⟩ := create_cases created
  refine ⟨heap', stackCells, thunk, ?_, defined⟩
  have grown := (startHeap_leaves s (n := 0)).of_ok started
  have mapped : CodeHeap.Grows 0 heap (heap.logging [] host') := .of_memory heap rfl
  exact (CodeHeap.Grows.trans mapped grown (CodeHeap.create_consistent made) (Nat.zero_le _)).2.1

theorem create_follows (created : create host s = .ok c) :
    ∃ b : Compiler, b.Follows c := by
  obtain ⟨heap, stackCells, thunk, consistent, defined⟩ := create_builtIn created
  have start : (wordless s heap stackCells thunk).Follows (wordless s heap stackCells thunk) :=
    .refl consistent Dictionary.wellFormed_empty rfl
  exact ⟨_, (follows_session _).builtIn.of_ok ⟨start, rfl⟩ defined⟩

theorem Reachable.follows (reachable : Reachable c) : ∃ b : Compiler, b.Follows c := by
  induction reachable with
  | create created => exact create_follows created
  | step op _ ih =>
    obtain ⟨b, follows⟩ := ih
    exact ⟨b, follows.after op⟩
  | @restore c s _ ih =>
    obtain ⟨b, follows⟩ := ih
    exact ⟨c.blank, follows.blank.restore (Nat.zero_le _) (blank_covered c _)⟩

/-! ## What restoring brings back -/

/-- `c` is `b` again, up to executable words that were not published and up to what `b` had not
published. -/
structure Restored (b c : Compiler) : Prop where
  dictionary : c.dictionary = b.dictionary
  definition : c.definition = none
  staged : c.heap.staged = b.heap.staged
  published_le : b.heap.published ≤ c.heap.published
  published : b.heap.published = b.heap.here → c.heap.published = b.heap.published
  executable : ∀ i < b.heap.published, c.heap.executableWord i = b.heap.executableWord i
  constants : c.heap.constants.used = b.heap.constants.used
  data : c.heap.data.used = b.heap.data.used
  table : c.heap.table.used = b.heap.table.used
  constantBytes : ∀ i < b.heap.constants.used, c.heap.constants.byte i = b.heap.constants.byte i
  slotBytes : ∀ i < b.heap.table.used, c.heap.table.byte i = b.heap.table.byte i

/-- Of a heap that still has everything, only the sizes have to come back. -/
theorem Restored.of_follows (heap : b.heap.Follows c.heap)
    (dictionary : c.dictionary = b.dictionary) (definition : c.definition = none)
    (here : c.heap.here = b.heap.here) (constants : c.heap.constants.used = b.heap.constants.used)
    (data : c.heap.data.used = b.heap.data.used) (table : c.heap.table.used = b.heap.table.used) :
    Restored b c := by
  have published_le := heap.consistent.published_le
  have grown := heap.extended.published
  refine ⟨dictionary, definition, ?_, grown, fun all => by omega, heap.extended.executable,
    constants, data, table, heap.extended.constants.kept, heap.extended.table.kept⟩
  refine Array.ext_getElem? fun i => ?_
  by_cases low : i < b.heap.here
  · exact heap.shares.words i low
  · rw [Array.getElem?_eq_none (Nat.le_of_not_lt low),
      Array.getElem?_eq_none (show c.heap.here ≤ i by omega)]

/-- Restoring a snapshot brings back everything that is still there. -/
theorem Follows.restored (follows : b.Follows c) (wellFormed : b.dictionary.WellFormed) :
    Restored b (c.restore b.snapshot) := by
  have base := follows.heap.base
  have covered : b.heap.CoveredBy b.heap.mark := (CodeHeap.Follows.refl base).covered
  have whole := base.slots
  refine .of_follows (follows.heap.rewind covered)
    (Dictionary.truncate_eq wellFormed follows.dictionary follows.entries) rfl ?_
    (Nat.min_eq_right follows.heap.extended.constants.used)
    (Nat.min_eq_right follows.heap.extended.data.used) ?_
  · show (c.heap.staged.shrink b.heap.here).size = b.heap.here
    rw [Array.size_shrink]
    exact Nat.min_eq_left follows.heap.shares.here
  · have used := follows.heap.extended.table.used
    show min c.heap.table.used (b.heap.table.used / 8 * 8) = b.heap.table.used
    omega

/-! ## Runs since a snapshot -/

/-- `c` came from `b` by operations and by restoring snapshots that were taken since. -/
inductive Since (b : Compiler) : Compiler → Prop
  | start : Since b b
  | step {c : Compiler} (op : Operation) : Since b c → Since b (c.after op)
  | restore {c t : Compiler} : Since b c → Since b t → Since b (c.restore t.snapshot)

theorem Since.follows (since : Since b c) (start : b.Follows b) : b.Follows c := by
  induction since with
  | start => exact start
  | step op _ ih => exact ih.after op
  | restore _ _ current taken => exact current.restore taken.entries.size taken.heap.covered

theorem Since.steps (ops : List Operation) (since : Since b c) : Since b (ops.foldl after c) :=
  List.foldlRecOn ops after since fun _ since op _ => since.step op

/-- Three values that are dropped, and one that is not. -/
def drops : List Operation :=
  [.literal 1, .word "drop", .literal 2, .word "drop", .literal 3, .word "drop", .literal 4]

/-- A word that leaves two values. -/
def twoValues : List Operation :=
  [.beginWord "y" { inputs := 0, outputs := 2 }, .literal 1, .literal 2, .endWord]

/-- A word with a branch. -/
def branching : List Operation :=
  [.beginWord "y" { inputs := 1, outputs := 0 }, .ifPart, .literal 1, .word "drop", .literal 2,
    .word "drop", .thenPart, .endWord]

/-- `b` after a word `x` was defined, a snapshot from inside its definition was restored, and `more`
was performed: the entry of `x` is back, but `more` has overwritten its code. -/
def overwritten (outputs : Nat) (body more : List Operation) (b : Compiler) : Compiler :=
  let inside := b.after (.beginWord "x" { inputs := 0, outputs })
  more.foldl after (((body.foldl after inside).after .endWord).restore inside.snapshot)

/-- `c` came from `b`, where a definition is open, by operations that neither end nor abandon it. -/
inductive Drafting (b : Compiler) : Compiler → Prop
  | start : Drafting b b
  | step {c : Compiler} (op : Operation) : op ≠ .endWord → op ≠ .abandonWord → Drafting b c →
      Drafting b (c.after op)

/-- In `c` the definition that was begun in `b` is open. -/
structure Opened (b c : Compiler) : Prop where
  follows : b.Follows c
  isOpen : ∃ w, c.definition = some w ∧ w.snapshot = b.snapshot
  newest : c.dictionary.size = b.dictionary.size + 1
  /-- Its entry has no code yet. -/
  unfinished : ∀ e code, c.dictionary.get? b.dictionary.size = some e → e.kind = .compiled code →
    code.layout.start = b.heap.here ∧ code.layout.epilogue = 0

theorem opened_invariant (b : Compiler) : BodyInvariant (Opened b) where
  heap := fun opened grows =>
    { opened with follows := (follows_invariant b).heap opened.follows grows }
  draft := by
    intro c w d opened isOpen confined
    obtain ⟨w', isOpen', snapshot⟩ := opened.isOpen
    obtain rfl := Option.some.inj (isOpen.symm.trans isOpen')
    have follows := opened.follows
    have inside :=
      confined b.heap w ⟨follows.heap, rfl, rfl, rfl, (follows.definition w isOpen).slots⟩
    exact { opened with
      follows := (follows_invariant b).draft follows isOpen confined
      isOpen := ⟨d.word, rfl, inside.word.snapshot.trans snapshot⟩ }
  addCall := by
    intro c w id opened isOpen bound
    have since := opened.follows.definition w isOpen
    have newest := since.newest
    have older : id ≤ w.entry := by omega
    obtain ⟨-, flagged⟩ := opened.follows.dictionary.addCall newest.symm older
    refine ⟨(follows_invariant b).addCall opened.follows isOpen bound, opened.isOpen, ?_, ?_⟩
    · exact (Dictionary.size_addCall ..).trans opened.newest
    · intro e code found kind
      obtain ⟨e1, found1, core1⟩ := flagged.core found
      obtain ⟨e0, found0, core0, -⟩ := Dictionary.link_view found1
      exact opened.unfinished e0 code found0
        ((congrArg Entry.kind (core1.trans core0) :).symm.trans kind)

theorem Opened.not_idle (opened : Opened b c) : c.definition ≠ none := by
  obtain ⟨w, isOpen, -⟩ := opened.isOpen
  rw [isOpen]
  exact Option.some_ne_none w

/-- A definition that has begun is open. -/
theorem opened_of_begun (start : b.Follows b) {name : String} {signature : Signature} {id : EntryId}
    (begun : beginWord name signature b = .ok id c) : Opened b c := by
  have follows := (Runs.of_ok (beginWord_keeps name signature) start begun).1
  obtain ⟨-, -, -, heap, -, rfl, rfl⟩ := beginWord_ok begun
  refine ⟨follows, ⟨_, rfl, rfl⟩, Dictionary.size_create .., fun e code found kind => ?_⟩
  replace found : (b.dictionary.create _).get? b.dictionary.size = some e := found
  rw [Dictionary.get?_create, if_pos rfl] at found
  obtain rfl := Option.some.inj found
  cases kind
  exact ⟨rfl, rfl⟩

theorem Opened.after (opened : Opened b c) {op : Operation} (notEnded : op ≠ .endWord)
    (notAbandoned : op ≠ .abandonWord) : Opened b (c.after op) := by
  cases inBody : op.inBody with
  | true =>
    exact (inBody_keeps (opened_invariant b) inBody).after opened
  | false =>
    obtain ⟨e, refused⟩ := refused_of_open opened.not_idle inBody notEnded notAbandoned
    rw [Compiler.after, stateAfter_of_error refused]
    exact opened

theorem Drafting.opened {c0 : Compiler} (drafting : Drafting c0 c) (start : Opened b c0) :
    Opened b c := by
  induction drafting with
  | start => exact start
  | step op notEnded notAbandoned _ ih => exact ih.after notEnded notAbandoned

theorem Opened.abandoned (opened : Opened b c) (wellFormed : b.dictionary.WellFormed) :
    Restored b c.abandonWord := by
  obtain ⟨w, isOpen, snapshot⟩ := opened.isOpen
  rw [abandonWord, isOpen]
  dsimp only
  rw [snapshot]
  exact opened.follows.restored wellFormed

theorem Opened.failed (opened : Opened b c) (wellFormed : b.dictionary.WellFormed)
    {e : CompileError} {c' : Compiler} (failed : endWord c = .error e c') : Restored b c' := by
  obtain ⟨w, isOpen, snapshot⟩ := opened.isOpen
  have finished := opened.follows.finishWord isOpen
  rw [endWord_some isOpen] at failed
  cases outcome : finishWord w c with
  | ok id c'' =>
    rw [outcome] at failed
    cases failed
  | error e c'' =>
    rw [outcome] at failed
    rw [stateAfter_of_error outcome] at finished
    cases failed
    rw [snapshot]
    exact finished.restored wellFormed

/-! ## Failed calls -/

/-- Publishing changes neither sizes nor entries. -/
theorem Restored.of_ensurePublished (start : b.Follows b) (idle : b.definition = none)
    (stop : Nat) :
    Restored b { b with heap := stateAfter (CodeHeap.ensurePublished stop) b.heap } := by
  have grown := start.heap.of_grows (CodeHeap.ensurePublished_leaves stop b.heap)
  obtain ⟨staged, constants, data, table⟩ := CodeHeap.ensurePublished_same stop b.heap
  exact .of_follows grown rfl idle (congrArg Array.size staged) (congrArg Region.used constants)
    (congrArg Region.used data) (congrArg Region.used table)

theorem Restored.refl (start : b.Follows b) (idle : b.definition = none) : Restored b b :=
  .of_follows start.heap rfl idle rfl rfl rfl rfl

theorem entryAddress_after (id : EntryId) (c : Compiler) :
    stateAfter (entryAddress id) c = c ∨
      ∃ stop, stateAfter (entryAddress id) c =
        { c with heap := stateAfter (CodeHeap.ensurePublished stop) c.heap } := by
  unfold entryAddress
  cases found : c.dictionary.get? id with
  | none => exact Or.inl (stateAfter_of_error (bind_of_error (entry_none found) _))
  | some e =>
    rw [stateAfter_bind, entry_some found]
    dsimp only
    split
    · next code kind =>
      split
      · right
        refine ⟨code.layout.stop, ?_⟩
        rw [stateAfter_bind]
        cases outcome : CodeHeap.ensurePublished code.layout.stop c.heap with
        | ok _ heap =>
          rw [onHeap_ok outcome, stateAfter_of_ok outcome]
          rfl
        | error e heap =>
          rw [onHeap_error outcome, stateAfter_of_error outcome]
      · exact Or.inl rfl
    · exact Or.inl rfl
    · exact Or.inl rfl

/-- Entering a word publishes it at most, and moves the host on. -/
theorem enterWord_after (id : EntryId) (args : List Cell) (c : Compiler) :
    ∃ host, stateAfter (enterWord id args) c =
      let c' := stateAfter (entryAddress id) c
      { c' with heap := c'.heap.logging [] host } := by
  unfold enterWord
  rw [stateAfter_bind]
  cases outcome : entryAddress id c with
  | error e c' =>
    rw [stateAfter_of_error outcome]
    exact ⟨c'.heap.memory.host, rfl⟩
  | ok address c' =>
    rw [stateAfter_of_ok outcome]
    let I (x : Compiler) : Prop := ∃ host, x = { c' with heap := c'.heap.logging [] host }
    refine Keeps.after (I := I) (Q := fun _ => True) ?_ ⟨c'.heap.memory.host, rfl⟩
    refine seq (entry_keeps id) fun e => seq (Keeps.get fun _ _ => trivial) fun c =>
      seq (ofExcept_keeps _) fun _ => seq ?_ fun _ => ofExcept_keeps _
    rintro _ ⟨host, rfl⟩
    obtain ⟨run, host', ran⟩ := CodeHeap.execute_cases (c'.heap.logging [] host)
    rw [onHeap_ok ran]
    exact ⟨⟨host', rfl⟩, trivial⟩

theorem Restored.logging (restored : Restored b c) (host : Host) :
    Restored b { c with heap := c.heap.logging [] host } := { restored with }

/-- Calling a word leaves what there was. -/
theorem Restored.of_invoke (start : b.Follows b) (idle : b.definition = none) (id : EntryId)
    (args : List Cell) : Restored b (stateAfter (invoke id args) b) := by
  rcases invoke_cases id args b with ⟨e, refused⟩ | ⟨-, entered | ⟨e, wrapped⟩⟩
  · rw [stateAfter_of_error refused]
    exact .refl start idle
  · obtain ⟨host, after⟩ := enterWord_after id args b
    rw [stateAfter_congr entered, after]
    refine .logging ?_ host
    rcases entryAddress_after id b with same | ⟨stop, published⟩
    · rw [same]
      exact .refl start idle
    · rw [published]
      exact .of_ensurePublished start idle stop
  · rw [stateAfter_congr wrapped, stateAfter_tryFinally]
    exact (((follows_session b).wrapped e id args).after start).restored start.dictionary

/-- Let no definition be open in `b`.  After any operations, whether they succeed or fail and
whatever protection changes are refused, and after restoring snapshots taken since, restoring the
snapshot of `b` brings `b` back.  So does abandoning a definition begun in `b` or failing to end it,
and a failed call leaves `b` as it was. -/
theorem restore_exact (reachable : Reachable b) (idle : b.definition = none) :
    (∀ c, Since b c → Restored b (c.restore b.snapshot)) ∧
      (∀ name signature id c0 c, beginWord name signature b = .ok id c0 → Drafting c0 c →
        Restored b c.abandonWord ∧ ∀ e c', endWord c = .error e c' → Restored b c') ∧
      ∀ id args e c', invoke id args b = .error e c' → Restored b c' := by
  obtain ⟨_, sound⟩ := reachable.follows
  have start : b.Follows b := .refl sound.heap.consistent sound.dictionary idle
  refine ⟨fun c since => (since.follows start).restored sound.dictionary, ?_, ?_⟩
  · intro name signature id c0 c begun drafting
    have opened := drafting.opened (opened_of_begun start begun)
    exact ⟨opened.abandoned sound.dictionary, fun e c' => opened.failed sound.dictionary⟩
  · intro id args e c' failed
    rw [← stateAfter_of_error failed]
    exact .of_invoke start idle id args

/-- A definition that fails to end because its code cannot be published, and one that is still open,
in a session that also calls older words and uses all regions. -/
theorem restore_exact_after_refusal :
    ∃ b c, create {} {} = .ok b ∧ b.definition = none ∧ Since b c ∧
      (c.dictionary.size, c.compiling?, c.heap.data.used) = (31, some "y", 16) ∧
        Restored b (c.restore b.snapshot) := by
  let ops : List Operation := [.bindExternal "f" 1 1 16,
    .beginWord "x" { inputs := 2, outputs := 1 }, .call 6, .refuse [0], .endWord,
    .allocateCells 2, .beginWord "y" { inputs := 2, outputs := 1 }, .inlineCall 6, .string "text"]
  have state : (create {} {}).toOption.map (fun b =>
      let c := ops.foldl after b
      (b.definition, c.dictionary.size, c.compiling?, c.heap.data.used)) =
      some (none, 31, some "y", 16) := by
    decide +kernel
  obtain ⟨b, created, state⟩ := toOption_map.1 state
  obtain ⟨idle, sizes⟩ := Prod.ext_iff.1 state
  have since : Since b (ops.foldl after b) := .steps ops .start
  exact ⟨b, _, created, idle, since, sizes, (restore_exact (.create created) idle).1 _ since⟩

/-- A snapshot that was taken inside a definition leaves words that are not published.  A snapshot
taken then does not bring the published length back. -/
theorem restore_publishes :
    ∃ b c : Compiler, Reachable b ∧ b.definition = none ∧ Since b c ∧
      (c.restore b.snapshot).heap.published ≠ b.heap.published := by
  let inside (c : Compiler) := c.after (.beginWord "x" { inputs := 0, outputs := 0 })
  let left (c : Compiler) := (inside c).restore (inside c).snapshot
  let ops : List Operation := [.beginWord "y" { inputs := 0, outputs := 0 }, .endWord]
  have state : (create {} {}).toOption.map (fun c =>
      let b := left c
      (b.definition,
        decide (((ops.foldl after b).restore b.snapshot).heap.published ≠ b.heap.published))) =
      some (none, true) := by
    decide +kernel
  obtain ⟨c, created, state⟩ := toOption_map.1 state
  obtain ⟨idle, differ⟩ := Prod.ext_iff.1 state
  exact ⟨left c, _, .restore _ (.step _ (.create created)), idle, .steps ops .start,
    of_decide_eq_true differ⟩

end Compiler

end ForthJit
