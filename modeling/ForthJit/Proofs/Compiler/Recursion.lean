import ForthJit.Proofs.Compiler.Restore
import ForthJit.Proofs.Dictionary.Components

/-!
# Recursion and the graph of calls

A definition can call any word but itself; it calls itself only by recursion.  So the calls that a
compiler has recorded go from newer words to older ones, and a word that calls itself is one in
which a recursion was compiled.  `Recursions ids c` keeps track of these words, whatever is defined,
abandoned and restored.
-/

namespace ForthJit.Compiler

variable {b c c0 : Compiler} {ids : List EntryId}

/-- The words in which a recursion was compiled, after an operation on `c`.  Those that have been
forgotten are dropped, since their places in the dictionary may be given to other words. -/
def recursionsAfter (c : Compiler) (ids : List EntryId) (op : Operation) : List EntryId :=
  let compiled := match op, c.definition, op.run c with
    | .recurse, some w, .ok _ _ => w.entry :: ids
    | _, _, _ => ids
  compiled.filter (· < (c.after op).dictionary.size)

/-- `c` is reachable, and `ids` are the words it has in which a recursion was compiled. -/
inductive Recursions : List EntryId → Compiler → Prop
  | create {host : Host} {s : Settings} {c : Compiler} : create host s = .ok c → Recursions [] c
  | step {ids : List EntryId} {c : Compiler} (op : Operation) : Recursions ids c →
      Recursions (c.recursionsAfter ids op) (c.after op)
  | restore {ids : List EntryId} {c : Compiler} (s : Snapshot) : Recursions ids c →
      Recursions (ids.filter (· < (c.restore s).dictionary.size)) (c.restore s)

/-! ## Calls stay linked -/

/-- Since `b` nothing was taken back, calls are linked and `ids` call themselves. -/
structure Linking (b : Compiler) (ids : List EntryId) (c : Compiler) : Prop where
  follows : b.Follows c
  linked : c.dictionary.Linked ids

theorem Linking.restore (linking : Linking b ids c) {s : Snapshot}
    (entries : b.dictionary.size ≤ s.entries) (mark : b.heap.CoveredBy s.heap) :
    Linking b ids (c.restore s) :=
  ⟨linking.follows.restore entries mark,
    linking.linked.truncate linking.follows.dictionary s.entries⟩

theorem linking_draft (b : Compiler) (ids : List EntryId) : DraftInvariant (Linking b ids) where
  heap := fun linking grows => ⟨(follows_invariant b).heap linking.follows grows, linking.linked⟩
  draft := fun linking isOpen confined =>
    ⟨(follows_invariant b).draft linking.follows isOpen confined, linking.linked⟩

/-- Without recursion, only other words are called. -/
theorem Worked.linking {strict : Prop} (worked : Worked strict (· ≠ .recurse) c0 c)
    (start : Linking b ids c0) : Linking b ids c := by
  have inv := linking_draft b ids
  induction worked with
  | start => exact start
  | heap _ _ grows ih => exact inv.heap ih grows
  | @act c w a d _ isOpen fits other done ih =>
    have left := inv.drafted ih isOpen a
    rw [stateAfter_of_ok done] at left
    unfold Compiler.acted Action.record
    cases called : a.callee? d.word with
    | none => exact left
    | some id =>
      obtain ⟨foreign, bound⟩ := fits.callee_other other called
      have same : d.word.entry = w.entry := Nat.add_right_cancel
        ((left.follows.definition d.word rfl).newest.symm.trans
          (ih.follows.definition w isOpen).newest)
      refine ⟨(follows_invariant b).addCall left.follows rfl (Or.inl bound),
        left.linked.addCall bound fun i => ?_⟩
      have apart : ¬(i = d.word.entry ∧ i = id) := by
        rintro ⟨rfl, own⟩
        exact foreign (own.symm.trans same)
      rw [or_iff_left apart]
  | @failed c w a e d _ _ isOpen _ _ failed ih =>
    have left := inv.drafted ih isOpen a
    rwa [stateAfter_of_error failed] at left

theorem linked_coded (linked : c.dictionary.Linked ids) (id : EntryId) (throws : Bool)
    (finished : Finished) : (c.ended id throws finished).dictionary.Linked ids := by
  refine linked.sameCalls (.trans ?_ (.publish _ id))
  have filled : Dictionary.SameCalls c.dictionary (c.dictionary.update id fun e =>
      { e with kind := .compiled finished.code, clobbers := finished.clobbers }) :=
    .update _ id fun _ => ⟨rfl, rfl⟩
  cases throws with
  | false => exact filled
  | true => exact filled.trans (.markThrows _ id)

theorem linking_end (b : Compiler) (ids : List EntryId) : EndInvariant (Linking b ids) :=
  { linking_draft b ids with
    ended := fun linking isOpen done drafted =>
      ⟨(follows_session b).ended linking.follows isOpen done drafted.follows,
        linked_coded drafted.linked _ _ _⟩
    restore := fun linking isOpen linking' =>
      have since := linking.follows.definition _ isOpen
      linking'.restore since.entries since.mark }

/-- A new entry calls nothing, and no word that was there has its place. -/
theorem linking_session (new : ∀ i ∈ ids, i < b.dictionary.size) :
    SessionInvariant (· ≠ .recurse) (Linking b ids) := by
  have created : ∀ {c : Compiler} {e : Entry}, Linking b ids c → e.callees = [] →
      (c.dictionary.create e).Linked ids := fun linking callees =>
    linking.linked.create (fun listed =>
      Nat.not_lt.2 linking.follows.entries.size (new _ listed)) callees
  exact { linking_end b ids with
    plain := fun a plain own => by
      subst own
      cases plain
    worked := fun linking worked => worked.linking linking
    begun := fun linking idle emitted =>
      ⟨(follows_session b).begun linking.follows idle emitted, created linking rfl⟩
    unbegun := fun linking full =>
      ⟨(follows_session b).unbegun linking.follows full, linking.linked⟩
    entered := fun linking idle callers callees hidden _ =>
      ⟨linking.follows.entered idle callers callees hidden,
        (created linking callees).sameCalls (.publish _ _)⟩
    back := fun linking _ linking' =>
      linking'.restore linking.follows.entries.size linking.follows.heap.covered }

/-! ## Every operation -/

theorem recurse_linking (linking : Linking b ids c) :
    (∃ e, recurse c = .error e (stateAfter recurse c)) ∧ Linking b ids (stateAfter recurse c) ∨
      ∃ w, c.definition = some w ∧ recurse c = .ok () (stateAfter recurse c) ∧
        Linking b (w.entry :: ids) (stateAfter recurse c) := by
  have emitted := emitting_keeps (linking_draft b ids) fun _ _ => Emit.recurse_confined
  cases outcome : emitting Emit.recurse c with
  | error e c1 =>
    have failed : recurse c = .error e c1 := bind_of_error outcome _
    rw [stateAfter_of_error failed]
    exact Or.inl ⟨⟨e, failed⟩, Runs.of_error emitted linking outcome⟩
  | ok _ c1 =>
    have done : recurse c = (do
        let word ← active
        modifyDictionary fun d => d.addCall word.entry word.entry) c1 := bind_of_ok outcome _
    obtain ⟨follows1, linked1⟩ := (Runs.of_ok emitted linking outcome).1
    obtain ⟨w, d, isOpen, -, rfl⟩ := emitting_ok outcome
    have newest := (linking.follows.definition w isOpen).newest
    have newest1 := (follows1.definition d.word rfl).newest
    have same : d.word.entry = w.entry := Nat.add_right_cancel (newest1.symm.trans newest)
    have inside : d.word.entry < c.dictionary.size := by
      rw [same, newest]
      exact Nat.lt_succ_self _
    refine Or.inr ⟨w, isOpen, ?_⟩
    rw [stateAfter_of_ok done]
    refine ⟨done, (follows_invariant b).addCall follows1 rfl (Or.inr rfl), ?_⟩
    refine linked1.addCall inside fun i => ?_
    rw [same, and_self, List.mem_cons, or_comm]

/-- An operation other than recursion changes nothing about the words that call themselves. -/
theorem Linking.unchanged (linking : Linking b ids c) (new : ∀ i ∈ ids, i < c.dictionary.size)
    {op : Operation} (other : op ≠ .recurse) : ∃ b', Linking b' ids (c.after op) := by
  have own : ∀ a, op.action? = some a → a ≠ .recurse := by
    rintro a same rfl
    cases op <;> cases same
    exact other rfl
  by_cases idle : c.definition = none
  · have start : Linking c ids c :=
      ⟨.refl linking.follows.heap.consistent linking.follows.dictionary idle, linking.linked⟩
    exact ⟨c, ((linking_session new).run op own).after start⟩
  · refine ⟨b, ?_⟩
    have inv := linking_end b ids
    cases inBody : op.inBody with
    | true =>
      have plain : ∀ a : Action, a.isPlain = true → a ≠ .recurse := by
        rintro _ plain rfl
        cases plain
      have worked : Worked False (· ≠ .recurse) c (c.after op) :=
        (Does.inBody plain inBody own).worked .start False.elim
      exact worked.linking linking
    | false =>
      by_cases ended : op = .endWord
      · rw [ended]
        exact (ignore_keeps inv.endWord).after linking
      by_cases abandoned : op = .abandonWord
      · rw [abandoned]
        exact inv.abandonWord linking
      · obtain ⟨e, refused⟩ := refused_of_open idle inBody ended abandoned
        rwa [Compiler.after, stateAfter_of_error refused]

/-- One operation: the words that call themselves are still those in which a recursion was
compiled. -/
theorem Linking.after (linking : Linking b ids c) (new : ∀ i ∈ ids, i < c.dictionary.size)
    (op : Operation) : ∃ b', Linking b' (c.recursionsAfter ids op) (c.after op) := by
  -- Of the words in which a recursion was compiled, only those that are there matter.
  have cut : ∀ {b ids'}, Linking b ids' (c.after op) →
      Linking b (ids'.filter (· < (c.after op).dictionary.size)) (c.after op) :=
    fun linking' => ⟨linking'.follows, linking'.linked.cut⟩
  by_cases recurses : op = .recurse
  · subst recurses
    refine ⟨b, ?_⟩
    rcases recurse_linking linking with ⟨⟨e, failed⟩, linking'⟩ | ⟨w, isOpen, done, linking'⟩
    · have same : c.recursionsAfter ids .recurse =
          ids.filter (· < (c.after .recurse).dictionary.size) := by
        unfold recursionsAfter
        rw [show Operation.recurse.run c = _ from failed]
        cases c.definition <;> rfl
      rw [same]
      exact cut linking'
    · have same : c.recursionsAfter ids .recurse =
          (w.entry :: ids).filter (· < (c.after .recurse).dictionary.size) := by
        unfold recursionsAfter
        rw [show Operation.recurse.run c = _ from done, isOpen]
      rw [same]
      exact cut linking'
  · have same : c.recursionsAfter ids op = ids.filter (· < (c.after op).dictionary.size) := by
      unfold recursionsAfter
      cases op <;> first | rfl | exact absurd rfl recurses
    rw [same]
    obtain ⟨b', linking'⟩ := linking.unchanged new recurses
    exact ⟨b', cut linking'⟩

/-! ## Every compiler -/

theorem Recursions.linking (recursions : Recursions ids c) :
    (∃ b, Linking b ids c) ∧ ∀ i ∈ ids, i < c.dictionary.size := by
  have inside : ∀ (ids : List EntryId) (n : Nat), ∀ i ∈ ids.filter (· < n), i < n :=
    fun ids n i listed => of_decide_eq_true (List.mem_filter.1 listed).2
  induction recursions with
  | create created =>
    obtain ⟨heap, stackCells, thunk, consistent, defined⟩ := create_builtIn created
    have none : ∀ (n : Nat), ∀ i ∈ ([] : List EntryId), i < n := fun _ _ listed =>
      absurd listed List.not_mem_nil
    exact ⟨⟨_, (linking_session (none _)).builtIn.of_ok
      ⟨⟨.refl consistent Dictionary.wellFormed_empty rfl, .empty⟩, rfl⟩ defined⟩, none _⟩
  | step op _ ih =>
    obtain ⟨⟨b, linking⟩, new⟩ := ih
    exact ⟨linking.after new op, inside _ _⟩
  | @restore ids c s _ ih =>
    obtain ⟨⟨b, linking⟩, -⟩ := ih
    have restored := linking.follows.blank.restore (Nat.zero_le _) (blank_covered c s.heap)
    have linked := linking.linked.truncate linking.follows.dictionary s.entries
    exact ⟨⟨c.blank, restored, linked.cut⟩, inside _ _⟩

/-- Every recorded call goes to an older word, or to the word itself if a recursion was compiled in
it.  So the cycles of calls are the compiled words with a recursion, each on its own, and calls lead
from a word to one that needs the interpreter exactly if it has the flag. -/
theorem call_graph (recursions : Recursions ids c) :
    (∀ id e, c.dictionary.get? id = some e →
      (∀ callee ∈ e.callees, callee ≤ id) ∧ (id ∈ e.callees ↔ id ∈ ids)) ∧
    c.dictionary.cycles = ((List.range c.dictionary.size).filter fun id =>
      decide (id ∈ ids) && c.dictionary.isCompiled id).map (fun id => [id]) ∧
    ∀ root e, c.dictionary.get? root = some e →
      ((c.dictionary.interpreterPath? root).isSome = true ↔ e.flags.interpreterOnly = true) := by
  obtain ⟨⟨b, follows, linked⟩, -⟩ := recursions.linking
  have wellFormed := follows.dictionary
  refine ⟨fun id e found => ⟨wellFormed.callees id e found, linked.self found⟩,
    Dictionary.cycles_eq linked wellFormed, fun root e found => ?_⟩
  rw [Dictionary.isSome_interpreterPath? linked wellFormed found]

/-- The compiler after `ops`, with the words in which a recursion was compiled. -/
def recursionsOf (p : List EntryId × Compiler) (op : Operation) : List EntryId × Compiler :=
  (p.2.recursionsAfter p.1 op, p.2.after op)

theorem Recursions.steps (ops : List Operation) (recursions : Recursions ids c) :
    Recursions (ops.foldl recursionsOf (ids, c)).1 (ops.foldl recursionsOf (ids, c)).2 := by
  induction ops generalizing ids c with
  | nil => exact recursions
  | cons op ops ih => exact ih (.step op recursions)

/-- A word that calls itself, one that did and was abandoned, and in its place one that prints. -/
theorem call_graph_after_abandon :
    ∃ ids c, Recursions ids c ∧ ids = [29] ∧ c.dictionary.size = 31 ∧
      c.dictionary.cycles = [[29]] ∧
      (c.dictionary.get? 30).map (·.callees) = some [0, 29] ∧
      (c.dictionary.interpreterPath? 30).isSome = true := by
  let ops : List Operation := [.beginWord "f" { inputs := 1, outputs := 1 }, .recurse, .endWord,
    .beginWord "g" { inputs := 1, outputs := 1 }, .recurse, .abandonWord,
    .beginWord "g" { inputs := 1, outputs := 0 }, .word "f", .word ".", .endWord]
  have state : (create {} {}).toOption.map (fun c =>
      let p := ops.foldl recursionsOf ([], c)
      (p.1, p.2.dictionary.size, (p.2.dictionary.get? 30).map fun e =>
        (e.callees, e.flags.interpreterOnly), p.2.dictionary.isCompiled 29)) =
      some ([29], 31, some ([0, 29], true), true) := by
    decide +kernel
  obtain ⟨c0, created, state⟩ := toOption_map.1 state
  have recursions := Recursions.steps ops (.create created)
  generalize ops.foldl recursionsOf ([], c0) = p at recursions state
  obtain ⟨ids, c⟩ := p
  simp only [Prod.mk.injEq] at state
  obtain ⟨rfl, size, entry, compiled⟩ := state
  obtain ⟨e, found, calls⟩ := Option.map_eq_some_iff.1 entry
  obtain ⟨callees, flag⟩ := Prod.mk.injEq .. ▸ calls
  obtain ⟨-, cycles, closed⟩ := call_graph recursions
  have one : (List.range 31).filter (fun id => decide (id ∈ [29]) && c.dictionary.isCompiled id) =
      (List.range 31).filter (· = 29) := by
    refine List.filter_congr fun id _ => ?_
    by_cases same : id = 29
    · subst same
      simp [compiled]
    · simp [same]
  rw [size, one] at cycles
  refine ⟨[29], c, recursions, rfl, size, cycles, ?_, (closed 30 e found).2 flag⟩
  rw [found, ← callees]
  rfl

end ForthJit.Compiler
