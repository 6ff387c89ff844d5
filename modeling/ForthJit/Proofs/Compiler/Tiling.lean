import ForthJit.Proofs.Compiler.Made

/-!
# Where the code of a compiler is

Between definitions, the compiled words follow one another from the end of the entry code up to the
end of the heap, in the order of their entries and without gaps, and all of them are published.
Whatever failed, was abandoned, was run once or was forgotten has left nothing behind.
-/

namespace ForthJit

/-- The words with these layouts follow one another from `start` up to `stop`. -/
def Tiles (start : Nat) : List WordLayout → (stop : Nat) → Prop
  | [], stop => start = stop
  | l :: ls, stop => l.start = start ∧ Tiles l.stop ls stop

theorem Tiles.append {start middle stop : Nat} {ls ls' : List WordLayout}
    (first : Tiles start ls middle) (second : Tiles middle ls' stop) :
    Tiles start (ls ++ ls') stop := by
  induction ls generalizing start with
  | nil =>
    cases first
    exact second
  | cons l ls ih => exact ⟨first.1, ih first.2⟩

theorem Tiles.pairwise {start stop : Nat} {ls : List WordLayout} (tiles : Tiles start ls stop)
    (ordered : ∀ l ∈ ls, l.start ≤ l.stop) :
    start ≤ stop ∧ (∀ l ∈ ls, start ≤ l.start) ∧ ls.Pairwise fun l l' => l.stop ≤ l'.start := by
  induction ls generalizing start with
  | nil => exact ⟨Nat.le_of_eq tiles, by simp, .nil⟩
  | cons l ls ih =>
    obtain ⟨here, rest⟩ := tiles
    obtain ⟨ends, after, apart⟩ :=
      ih rest fun l' member => ordered l' (List.mem_cons_of_mem _ member)
    have length := ordered l List.mem_cons_self
    refine ⟨by omega, fun l' member => ?_, List.pairwise_cons.2 ⟨after, apart⟩⟩
    rcases List.mem_cons.1 member with rfl | later
    · exact here.ge
    · have := after l' later
      omega

/-- The layouts of the compiled words, in the order of their entries. -/
def Dictionary.layouts (d : Dictionary) : List WordLayout :=
  (d.entries.toList.filterMap Entry.compiled?).map (·.layout)

theorem Convention.emitThunk_ok {convention : Convention} {h h' : CodeHeap}
    {entry : Nat} (ok : convention.emitThunk h = .ok entry h') :
    ∃ code, convention.thunk = .ok code ∧ entry = h.here ∧
      h' = h.stage (code.map Instruction.encode) := by
  unfold Convention.emitThunk at ok
  cases made : convention.thunk with
  | error e =>
    rw [made] at ok
    cases ok
  | ok code =>
    rw [made] at ok
    dsimp only at ok
    split at ok
    · next h1 emitted =>
      cases ok
      exact ⟨code, rfl, rfl, CodeHeap.emitAll_ok emitted⟩
    · cases ok

namespace Compiler

variable {strict : Prop} {raw : InstrWord → RegSet → Prop} {l : Records} {b c c' : Compiler}

/-- Where the entry code ends. -/
def thunkStop (c : Compiler) : Nat :=
  match c.settings.convention.thunk with
  | .ok code => c.thunk + code.length
  | .error _ => c.thunk

theorem thunkStop_of_ok {code : List Instruction} (made : c.settings.convention.thunk = .ok code) :
    c.thunkStop = c.thunk + code.length := by
  unfold thunkStop
  rw [made]

theorem SameFrame.thunkStop (same : SameFrame b c) : c.thunkStop = b.thunkStop := by
  unfold Compiler.thunkStop
  rw [same.1, same.2]

variable {e : Entry} {current : List Snapshot} {code : CompiledWord}

/-- One more entry has at most one more layout; the older words are where they were. -/
theorem Follows.layouts (start : b.Follows b) (follows : b.Follows c)
    (size : c.dictionary.size = b.dictionary.size + 1)
    (newest : c.dictionary.get? b.dictionary.size = some e) :
    c.dictionary.layouts = b.dictionary.layouts ++ (e.compiled?.map (·.layout)).toList := by
  have compiled : c.dictionary.entries.toList.map Entry.compiled? =
      b.dictionary.entries.toList.map Entry.compiled? ++ [e.compiled?] := by
    apply List.ext_getElem?
    intro id
    rw [List.getElem?_append, List.length_map, List.getElem?_map, List.getElem?_map,
      Array.getElem?_toList, Array.getElem?_toList, Array.length_toList]
    split
    · next older =>
      obtain ⟨e0, found⟩ := Dictionary.get?_of_lt older
      obtain ⟨callers, found'⟩ := start.kept follows found
      replace found : b.dictionary.entries[id]? = some e0 := found
      replace found' : c.dictionary.entries[id]? = some { e0 with callers } := found'
      rw [found, found']
      rfl
    · next newer =>
      rcases Nat.eq_or_lt_of_le (Nat.le_of_not_lt newer) with rfl | beyond
      · replace newest : c.dictionary.entries[b.dictionary.entries.size]? = some e := newest
        rw [newest, Nat.sub_self]
        rfl
      · have absent : c.dictionary.entries[id]? = none := by
          apply Array.getElem?_eq_none
          show c.dictionary.size ≤ id
          rw [size]
          exact beyond
        rw [absent, List.getElem?_eq_none]
        · rfl
        · rw [List.length_singleton]
          omega
  have through : ∀ es : List Entry, es.filterMap Entry.compiled? =
      (es.map Entry.compiled?).filterMap id := fun es => by rw [List.filterMap_map]; rfl
  unfold Dictionary.layouts
  rw [through, compiled, List.filterMap_append, ← through, List.map_append]
  cases e.compiled? <;> rfl

/-- Published code follows published code. -/
structure Tiled (c : Compiler) : Prop where
  published : c.heap.published = c.heap.here
  tiles : Tiles c.thunkStop c.dictionary.layouts c.heap.here

/-- Nothing but the entry code is on a heap that has just been started. -/
theorem Started.tiled {s : Settings} {heap : CodeHeap} (stackCells : Nat) {thunk : Nat}
    (started : Started s heap thunk) : (wordless s heap stackCells thunk).Tiled := by
  have consistent := started.consistent
  obtain ⟨host, host', empty, created, start⟩ := started
  obtain ⟨position, h1, emitted, rest⟩ := bind_eq_ok.1 start
  obtain ⟨_, h2, synced, rest⟩ := bind_eq_ok.1 rest
  cases rest
  obtain ⟨report, done⟩ : ∃ report, CodeHeap.syncTo h1.here h1 = .ok report heap := by
    split at synced
    · next report h2 done =>
      cases synced
      exact ⟨report, done⟩
    · cases synced
  have staged : heap.staged = h1.staged := by
    have same := (CodeHeap.syncTo_same h1.here h1).1
    rwa [stateAfter_of_ok done] at same
  have size : heap.here = h1.here := congrArg Array.size staged
  have reached := CodeHeap.syncTo_reaches done
  refine ⟨Nat.le_antisymm consistent.published_le ?_, ?_⟩
  · show heap.here ≤ heap.published
    omega
  · obtain ⟨code, made, rfl, rfl⟩ := Convention.emitThunk_ok emitted
    rw [CodeHeap.here_stage, List.length_map] at size
    show thunkStop (wordless s heap stackCells _) = heap.here
    rw [thunkStop_of_ok made, size]
    rfl

theorem Built.tiled (built : Built strict raw l c) : c.Tiled := by
  induction built with
  | start started => exact started.tiled _
  | @enter l c e built callers callees hidden other _ _ ih =>
    have idle := built.idle
    have follows := idle.follows.entered idle.definition callers callees hidden
    have newest : (c.dictionary.create e).get? c.dictionary.size = some e := by
      rw [Dictionary.get?_create, if_pos rfl]
    obtain ⟨size, found⟩ := Dictionary.publish_newest newest
    rw [Dictionary.size_create] at size
    have none : Entry.compiled? { e with visible := true } = none := by
      unfold Entry.compiled?
      split
      · next code kind => exact absurd kind (other code)
      · rfl
    refine ⟨ih.published, ?_⟩
    rw [idle.follows.layouts follows size found, none]
    show Tiles c.thunkStop (c.dictionary.layouts ++ []) c.heap.here
    rw [List.append_nil]
    exact ih.tiles
  | @define l b c0 c c' w name signature id id' built begun worked isOpen finished ih =>
    have start := built.idle.follows
    have opened := worked.opened start begun
    have frame :=
      (sameFrame_session b).finishWord (worked.sameFrame (sameFrame_of_begun begun)) isOpen
    have follows := opened.follows.finishWord isOpen
    rw [stateAfter_of_ok finished] at follows frame
    obtain ⟨p, laid, d, code, e, e', ended⟩ := finishWord_ended opened isOpen finished
    obtain ⟨called, sound, -⟩ := worked.sound start
      (Made.copyable (built.made) built.idle.clean) begun isOpen
    refine ⟨ended.published, ?_⟩
    rw [start.layouts follows ended.size ended.after, frame.thunkStop,
      Entry.compiled?_eq_some.2 ended.kind, ended.here_eq]
    exact ih.tiles.append ⟨ended.start_eq sound, rfl⟩
  | @again l l' b c built follows definition dictionary staged frame records ih =>
    have size : c.heap.here = b.heap.here := congrArg Array.size staged
    refine ⟨?_, ?_⟩
    · have grown := follows.heap.extended.published
      have below := follows.heap.consistent.published_le
      have before := ih.published
      omega
    · rw [frame.thunkStop, dictionary, size]
      exact ih.tiles

/-! ## Finished words -/

/-- The finished words of a run are those of a compiler without an open definition. -/
theorem Run.base (obeys : BuiltInObeys raw) (run : Run strict raw current l c) :
    ∃ b, Built strict raw l b ∧ b.Follows c ∧ SameFrame b c ∧
      ∀ (id : Nat) e code, c.HasWord id e code → id < b.dictionary.size := by
  cases run.standing obeys with
  | idle built =>
    exact ⟨c, built, built.idle.follows, .refl c, fun id e code word =>
      Dictionary.get?_lt word.found⟩
  | @working b c0 _ name signature id built begun worked =>
    have opened := worked.opened built.idle.follows begun
    obtain ⟨w, isOpen, -⟩ := opened.isOpen
    exact ⟨b, built, opened.follows, worked.sameFrame (sameFrame_of_begun begun),
      fun id e code word => opened.older isOpen (word.finished w isOpen) word.found⟩

theorem Run.word {P : Compiler → List PendingPatch → Entry → CompiledWord → Prop}
    (inv : WordInvariant strict raw c.settings P) (obeys : BuiltInObeys raw)
    (run : Run strict raw current l c) {id : Nat} (word : c.HasWord id e code) :
    P c (l id) e code := by
  obtain ⟨b, built, follows, frame, older⟩ := run.base obeys
  have start := built.idle.follows
  obtain ⟨e0, found0, same⟩ := start.older follows (older id e code word) word.found
  have kind := word.kind
  rw [same] at kind ⊢
  exact inv.stable start follows (inv.words built frame.1.symm id e0 code found0 kind) _

theorem Built.ordered (built : Built strict raw l c) :
    ∀ l ∈ c.dictionary.layouts, l.start ≤ l.stop := by
  intro l member
  obtain ⟨code, isCode, rfl⟩ := List.mem_map.1 member
  obtain ⟨e, isEntry, compiled⟩ := List.mem_filterMap.1 isCode
  obtain ⟨id, found⟩ := List.mem_iff_getElem?.1 isEntry
  rw [Array.getElem?_toList] at found
  cases (built.made id e code found (Entry.compiled?_eq_some.1 compiled)).ordered
  omega

/-- An older word ends before a newer one starts. -/
theorem Built.apart (built : Built strict raw l c) {id id' : Nat} {e' : Entry}
    {code' : CompiledWord} (found : c.dictionary.get? id = some e) (kind : e.kind = .compiled code)
    (found' : c.dictionary.get? id' = some e') (kind' : e'.kind = .compiled code')
    (older : id < id') : code.layout.stop ≤ code'.layout.start := by
  have apart := (built.tiled.tiles.pairwise built.ordered).2.2
  unfold Dictionary.layouts at apart
  rw [List.pairwise_map, List.pairwise_filterMap, List.pairwise_iff_getElem] at apart
  obtain ⟨bound, at_id⟩ := Array.getElem?_eq_some_iff.1 found
  obtain ⟨bound', at_id'⟩ := Array.getElem?_eq_some_iff.1 found'
  apply apart id id' bound bound' older code _ code'
  · rw [Array.getElem_toList, at_id']
    exact Entry.compiled?_eq_some.2 kind'
  · rw [Array.getElem_toList, at_id]
    exact Entry.compiled?_eq_some.2 kind

/-- Finished words are published. -/
theorem Run.published (obeys : BuiltInObeys raw) (run : Run strict raw current l c) {id : Nat}
    (word : c.HasWord id e code) : code.layout.stop ≤ c.heap.published := by
  obtain ⟨b, built, follows, -, older⟩ := run.base obeys
  obtain ⟨e0, found0, rest⟩ :=
    built.idle.follows.older follows (older id e code word) word.found
  have kind : e0.kind = .compiled code := (congrArg Entry.kind rest).symm.trans word.kind
  calc code.layout.stop
    _ ≤ b.heap.here := (built.made id e0 code found0 kind).stop_le
    _ = b.heap.published := built.tiled.published.symm
    _ ≤ c.heap.published := follows.heap.extended.published

/-- No two finished words are entered at the same position. -/
theorem Run.entry_injective (obeys : BuiltInObeys raw) (run : Run strict raw current l c)
    {id id' : Nat} {e' : Entry} {code' : CompiledWord} (word : c.HasWord id e code)
    (word' : c.HasWord id' e' code') (same : code.layout.entry = code'.layout.entry) :
    id = id' := by
  obtain ⟨b, built, follows, -, older⟩ := run.base obeys
  have start := built.idle.follows
  obtain ⟨e0, found0, rest⟩ := start.older follows (older id e code word) word.found
  obtain ⟨e1, found1, rest'⟩ := start.older follows (older id' e' code' word') word'.found
  have kind : e0.kind = .compiled code := (congrArg Entry.kind rest).symm.trans word.kind
  have kind' : e1.kind = .compiled code' := (congrArg Entry.kind rest').symm.trans word'.kind
  cases (built.made id e0 code found0 kind).ordered
  cases (built.made id' e1 code' found1 kind').ordered
  rcases Nat.lt_trichotomy id id' with before | equal | after
  · have := built.apart found0 kind found1 kind' before
    omega
  · exact equal
  · have := built.apart found1 kind' found0 kind after
    omega

/-- In every compiler without an open definition, all code is published, and the compiled words in
the order of their entries fill the heap from the end of the entry code on.  The parts of each
follow one another, with two words for each literal that it loads. -/
theorem code_tiled {current : List Snapshot} (run : Run False (fun _ _ => True) current l c)
    (idle : c.definition = none) :
    c.heap.published = c.heap.here ∧ Tiles c.thunkStop c.dictionary.layouts c.heap.here ∧
      ∀ id e code, c.dictionary.get? id = some e → e.kind = .compiled code →
        code.layout.Ordered (PendingPatch.literals (l id)).length := by
  have built := run.built (fun _ _ _ _ => trivial) idle
  have tiled := built.tiled
  exact ⟨tiled.published, tiled.tiles,
    fun id e code found kind => (built.made id e code found kind).ordered⟩

/-- A word with two literals is kept when a snapshot is restored.  After that, the calls of a
definition are refused and it is abandoned, another cannot be published and an older word is run. -/
theorem code_tiled_after_failures :
    ∃ c l s, Run False (fun _ _ => True) [s] l c ∧ c.definition = none ∧
      (c.thunkStop, c.dictionary.layouts.length, c.heap.here,
        (PendingPatch.literals (l 29)).length) = (26, 24, 166, 2) ∧
      c.heap.published = c.heap.here ∧ Tiles c.thunkStop c.dictionary.layouts c.heap.here ∧
      ∀ id e code, c.dictionary.get? id = some e → e.kind = .compiled code →
        code.layout.Ordered (PendingPatch.literals (l id)).length := by
  let kept : List Operation := [.beginWord "x" { inputs := 1, outputs := 3 },
    .literal 0x123456789ABCDEF0, .literal 0x1122334455667788, .endWord]
  let forgotten : List Operation := [.beginWord "y" { inputs := 0, outputs := 0 }, .endWord]
  let failing : List Operation := [.beginWord "z" { inputs := 0, outputs := 1 }, .literal 7,
    .call 99, .abandonWord, .beginWord "u" { inputs := 0, outputs := 0 }, .refuse [0], .endWord,
    .invoke 5 [1]]
  let before (b : Compiler) := played kept (fun _ => []) b
  let after (b : Compiler) := played forgotten (before b).1 (before b).2
  let last (b : Compiler) := played failing (after b).1 ((after b).2.restore (before b).2.snapshot)
  have state : (create {} {}).toOption.map (fun b =>
      ((before b).2.definition, (last b).2.definition, (last b).2.thunkStop,
        (last b).2.dictionary.layouts.length, (last b).2.heap.here,
        (PendingPatch.literals ((last b).1 29)).length)) = some (none, none, 26, 24, 166, 2) := by
    decide +kernel
  obtain ⟨b, created, state⟩ := toOption_map.1 state
  obtain ⟨between, state⟩ := Prod.ext_iff.1 state
  obtain ⟨idle, sizes⟩ := Prod.ext_iff.1 state
  have obeys : ∀ {ops : List Operation}, ∀ op ∈ ops, op.Obeys fun _ _ => True := by
    intro ops op member
    cases op <;> simp [Operation.Obeys]
  have start : Run False (fun _ _ => True) [] _ b := .create created
  have taken := (start.steps kept obeys False.elim).snapshot between
  have later : Run False (fun _ _ => True) ([] ++ [(before b).2.snapshot]) _ _ :=
    taken.steps forgotten obeys False.elim
  have run := later.restore.steps failing obeys False.elim
  exact ⟨_, _, _, run, idle, sizes, code_tiled run idle⟩

end Compiler

end ForthJit
