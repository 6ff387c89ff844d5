import ForthJit.Proofs.Compiler.LaidOut
import ForthJit.Proofs.Compiler.Restore

/-!
# Finished words are final

A finished word has passed verification, so a copy of its body holds no placeholder.  That stays so
as long as no restored snapshot cuts a finished word in two: a snapshot that was taken inside a
definition keeps the entry of that word, and once the word is finished it would keep only part of
its code.  `Orderly` runs restore no such snapshot; every snapshot taken while no definition is open
is fine.
-/

namespace ForthJit.Compiler

variable {b c t : Compiler}

/-- The body of every finished word is there, and all its words are final. -/
def Clean (c : Compiler) : Prop :=
  ∀ id e code, c.dictionary.get? id = some e → e.kind = .compiled code →
    ∀ i, code.layout.body ≤ i → i < code.layout.epilogue → ∃ w, c.heap.word? i = some w ∧ Final w

/-- Restoring `s` keeps the body of every word that it keeps. -/
def Covers (c : Compiler) (s : Snapshot) : Prop :=
  ∀ (id : Nat) e code, id < s.entries → c.dictionary.get? id = some e → e.kind = .compiled code →
    ∀ i, code.layout.body ≤ i → i < code.layout.epilogue → i < s.heap.code

/-- An older entry still has the code that it had. -/
theorem Follows.kind (follows : b.Follows c) {id : Nat} (older : id < b.dictionary.size) {e : Entry}
    (found : c.dictionary.get? id = some e) :
    ∃ e0, b.dictionary.get? id = some e0 ∧
      e.upTo b.dictionary.size = e0.upTo b.dictionary.size := by
  have same := follows.entries.entries id older
  rw [found] at same
  obtain ⟨e0, found0, cut⟩ := Option.map_eq_some_iff.1 same.symm
  exact ⟨e0, found0, cut.symm⟩

/-- If older words are clean, only newer ones can be unclean. -/
theorem Clean.of_follows (clean : b.Clean) (follows : b.Follows c)
    (new : ∀ (id : Nat) e code, b.dictionary.size ≤ id → c.dictionary.get? id = some e →
      e.kind = .compiled code → ∀ i, code.layout.body ≤ i → i < code.layout.epilogue →
        ∃ w, c.heap.word? i = some w ∧ Final w) : c.Clean := by
  intro id e code found kind i low high
  by_cases older : (id : Nat) < b.dictionary.size
  · obtain ⟨e0, found0, same⟩ := follows.kind older found
    have kind0 : e0.kind = .compiled code := (congrArg Entry.kind same :).symm.trans kind
    obtain ⟨w, at_i, final⟩ := clean id e0 code found0 kind0 i low high
    have bound : i < b.heap.here := (Array.getElem?_eq_some_iff.1 at_i).1
    exact ⟨w, (follows.heap.shares.words i bound).trans at_i, final⟩
  · exact new id e code (Nat.le_of_not_lt older) found kind i low high

/-- What was clean when a snapshot was taken is covered by it. -/
theorem Clean.covers (clean : t.Clean) (follows : t.Follows c) : c.Covers t.snapshot := by
  intro id e code older found kind i low high
  obtain ⟨e0, found0, same⟩ := follows.kind older found
  have kind0 : e0.kind = .compiled code := (congrArg Entry.kind same :).symm.trans kind
  obtain ⟨w, at_i, -⟩ := clean id e0 code found0 kind0 i low high
  exact (Array.getElem?_eq_some_iff.1 at_i).1

theorem Clean.restore (clean : c.Clean) (wellFormed : c.dictionary.WellFormed) {s : Snapshot}
    (covers : c.Covers s) : (c.restore s).Clean := by
  intro id e code found kind i low high
  replace found : (c.dictionary.truncate s.entries).get? id = some e := found
  rw [Dictionary.get?_truncate wellFormed] at found
  split at found
  · next kept =>
    obtain ⟨e0, found0, rfl⟩ := Option.map_eq_some_iff.1 found
    obtain ⟨w, at_i, final⟩ := clean id e0 code found0 kind i low high
    refine ⟨w, ?_, final⟩
    show (c.heap.staged.shrink s.heap.code)[i]? = some w
    rw [CodeHeap.getElem?_shrink, if_pos (covers id e0 code kept found0 kind i low high)]
    exact at_i
  · cases found

/-! ## Between definitions -/

/-- No definition is open, and every finished word is clean. -/
structure Idle (c : Compiler) : Prop where
  definition : c.definition = none
  follows : c.Follows c
  clean : c.Clean

/-- A definition is open that was begun between definitions. -/
def Working (c : Compiler) : Prop := ∃ b : Compiler, b.Idle ∧ b.Opened c

theorem Idle.of_follows (idle : b.Idle) (follows : b.Follows c) (definition : c.definition = none)
    (new : ∀ (id : Nat) e code, b.dictionary.size ≤ id → c.dictionary.get? id = some e →
      e.kind = .compiled code → ∀ i, code.layout.body ≤ i → i < code.layout.epilogue →
        ∃ w, c.heap.word? i = some w ∧ Final w) : c.Idle :=
  ⟨definition, .refl follows.heap.consistent follows.dictionary definition,
    idle.clean.of_follows follows new⟩

/-- If no entry was added, nothing new can be unclean. -/
theorem Idle.of_same (idle : b.Idle) (follows : b.Follows c) (definition : c.definition = none)
    (dictionary : c.dictionary = b.dictionary) : c.Idle :=
  idle.of_follows follows definition fun id e code new found => by
    rw [dictionary] at found
    exact absurd (Dictionary.get?_lt found) (Nat.not_lt.2 new)

/-- The only new entry is the one that was entered. -/
theorem entered_new {e f : Entry} {id : EntryId} (found : (c.entered e).dictionary.get? id = some f)
    (new : c.dictionary.size ≤ id) :
    f.kind = e.kind ∧ f.inputs = e.inputs ∧ f.outputs = e.outputs := by
  obtain ⟨f0, found0, same⟩ := Dictionary.publish_view found
  rw [Dictionary.get?_create] at found0
  split at found0
  · cases found0
    rcases same with rfl | rfl <;> exact ⟨rfl, rfl, rfl⟩
  · exact absurd (Dictionary.get?_lt found0) (Nat.not_lt.2 new)

/-- Nor can an entry that is no compiled word. -/
theorem Idle.entered (idle : c.Idle) {e : Entry} (callers : e.callers = [])
    (callees : e.callees = []) (hidden : e.visible = false)
    (other : ∀ code, e.kind ≠ .compiled code) : (c.entered e).Idle :=
  idle.of_follows (idle.follows.entered idle.definition callers callees hidden)
    idle.definition fun _ _ code new found kind =>
      absurd ((entered_new found new).1.symm.trans kind) (other code)

theorem idle_invariant : BodyInvariant Idle where
  heap := fun idle grows =>
    idle.of_same ((follows_invariant _).heap idle.follows grows) idle.definition rfl
  draft := fun idle isOpen _ => by
    rw [idle.definition] at isOpen
    cases isOpen
  addCall := fun idle isOpen _ => by
    rw [idle.definition] at isOpen
    cases isOpen

theorem Idle.restored (idle : b.Idle) (follows : b.Follows c) (restored : Restored b c) : c.Idle :=
  idle.of_same follows restored.definition restored.dictionary

/-- While the definition is open, its own entry has no code that could be unclean. -/
theorem Opened.clean (opened : b.Opened c) (clean : b.Clean) : c.Clean := by
  refine clean.of_follows opened.follows fun id e code new found kind i low high => ?_
  have bound : (id : Nat) < _ := Dictionary.get?_lt found
  have newest := opened.newest
  obtain rfl : id = b.dictionary.size := by omega
  have none := (opened.unfinished e code found kind).2
  omega

/-! ## Definitions -/

theorem beginWord_idle (name : String) (signature : Signature) :
    Runs Idle (beginWord name signature) (fun _ c => c.Working) Idle := by
  intro c idle
  have kept := beginWord_keeps (b := c) name signature c idle.follows
  cases outcome : beginWord name signature c with
  | ok id c' => exact ⟨c, idle, opened_of_begun idle.follows outcome⟩
  | error e c' =>
    rw [outcome] at kept
    rcases beginWord_error outcome with rfl | ⟨e, heap, -, rfl⟩
    · exact idle
    · exact idle.of_same kept idle.definition rfl

/-- A word that could be finished is clean. -/
theorem finishWord_clean (opened : b.Opened c) {w : Definition} (isOpen : c.definition = some w)
    {id : EntryId} {c' : Compiler} (finished : finishWord w c = .ok id c') :
    c'.definition = none ∧ ∀ (id : Nat) e code, b.dictionary.size ≤ id →
      c'.dictionary.get? id = some e → e.kind = .compiled code →
        ∀ i, code.layout.body ≤ i → i < code.layout.epilogue →
          ∃ w, c'.heap.word? i = some w ∧ Final w := by
  obtain ⟨result, c1, heap, published, emitted, synced, rfl⟩ := finishWord_ok finished
  refine ⟨rfl, fun id e code new found kind i low high => ?_⟩
  have opened1 := (Runs.of_ok (emitting_keeps (opened_invariant b).toDraftInvariant fun _ _ =>
    Emit.finish_confined (c.throwing w)) opened emitted).1
  obtain ⟨w0, d, isOpen0, made, rfl⟩ := emitting_ok emitted
  obtain rfl := Option.some.inj (isOpen.symm.trans isOpen0)
  obtain ⟨laid, laidOut, final, -, layout, -⟩ := Emit.finish_ok made
  obtain ⟨p, parts⟩ := Emit.layOut_ok laidOut
  have word := parts.word
  -- The only new entry is that of the definition, with the code that was laid out.
  obtain rfl : code = result.code := by
    obtain ⟨-, size, -, shown⟩ := opened1.follows.coded rfl (c.throwing w) result
    obtain ⟨e0, found0, same⟩ := Dictionary.publish_view found
    have entry : d.word.entry = w.entry := by rw [word]
    have newest := opened.newest
    have last := (opened.follows.definition w isOpen).newest
    have bound : (id : Nat) < _ := Dictionary.get?_lt found0
    rw [entry] at size shown
    rw [size] at bound
    obtain rfl : id = w.entry := by omega
    have coded := (shown e0 found0).2
    rcases same with rfl | rfl <;> exact EntryKind.compiled.inj (kind.symm.trans coded)
  obtain ⟨staged, -⟩ := CodeHeap.syncTo_same result.code.layout.stop d.heap
  rw [stateAfter_of_ok synced] at staged
  rw [layout] at low high
  have shown : laid.layout.body = d.word.start + prologueSlots := by
    rw [parts.layout, word]
    rfl
  obtain ⟨exits, data⟩ := parts.data_le
  have here := parts.here
  have bound : i < d.heap.here := by omega
  refine ⟨d.heap.staged[i], ?_, ?_⟩
  · show heap.staged[i]? = _
    rw [staged]
    exact Array.getElem?_eq_getElem bound
  · exact final i _ (by omega) (by omega) (Array.getElem?_eq_getElem bound)

theorem endWord_idle : Runs Working endWord (fun _ c => c.Idle) Idle := by
  rintro c ⟨b, idle, opened⟩
  have kept := endWord_keeps (b := b) c opened.follows
  cases outcome : endWord c with
  | ok id c' =>
    rw [outcome] at kept
    obtain ⟨w, isOpen, -⟩ := opened.isOpen
    obtain ⟨definition, new⟩ := finishWord_clean opened isOpen (endWord_finished isOpen outcome)
    exact idle.of_follows kept.1 definition new
  | error e c' =>
    rw [outcome] at kept
    exact idle.restored kept (opened.failed idle.follows.dictionary outcome)

theorem Working.abandonWord (working : c.Working) : c.abandonWord.Idle := by
  obtain ⟨b, idle, opened⟩ := working
  exact idle.restored opened.follows.abandonWord (opened.abandoned idle.follows.dictionary)

theorem definePrimitive_idle (name : String) (inputs outputs : Nat) (clobbers : RegSet)
    (body : List InstrWord) :
    Keeps Idle (definePrimitive name inputs outputs clobbers body) fun _ => True := by
  refine Runs.bind (beginWord_idle _ _) fun _ => Runs.bind (Q := fun _ c => c.Working) ?_ fun _ =>
    Runs.weaken endWord_idle (fun _ holds => holds) (fun _ _ idle => ⟨idle, trivial⟩)
      fun _ holds => holds
  refine Runs.tryCatch (F := Working) ?_ fun e => ?_
  · intro c ⟨b, idle, opened⟩
    have kept := emitting_keeps (opened_invariant b).toDraftInvariant
      (fun _ _ => Emit.primitiveBody_confined inputs outputs clobbers body) c opened
    cases outcome : emitting (Emit.primitiveBody inputs outputs clobbers body) c with
    | ok _ c' =>
      rw [outcome] at kept
      exact ⟨b, idle, kept.1⟩
    | error e c' =>
      rw [outcome] at kept
      exact ⟨b, idle, kept⟩
  · exact fun c working => working.abandonWord

theorem bindExternal_idle (name : String) (inputs outputs address : Nat) :
    Keeps Idle (bindExternal name inputs outputs address) fun _ => True := by
  intro c idle
  rcases bindExternal_cases name inputs outputs address c with ⟨e, refused⟩ |
    ⟨-, -, -, ⟨e, heap, full, refused⟩ | ⟨slot, heap, reserved, bound⟩⟩
  · rw [refused]
    exact idle
  · rw [refused]
    exact idle_invariant.heap idle fun n => (CodeHeap.bindSlot_leaves address).of_error full
  · rw [bound]
    have grown :=
      idle_invariant.heap idle fun n => (CodeHeap.bindSlot_leaves address).of_ok reserved
    exact ⟨grown.entered rfl rfl rfl nofun, trivial⟩

theorem resolveExternal_idle (name : String) (inputs outputs : Nat) :
    Keeps Idle (resolveExternal name inputs outputs) fun _ => True := by
  refine seq (Keeps.get fun _ _ => trivial) fun c => ?_
  split
  · exact Keeps.throw _
  · exact bindExternal_idle _ _ _ _

/-! ## Orderly runs -/

/-- A compiler that operations have made out of a new one, without restoring a snapshot that cuts a
finished word in two. -/
inductive Orderly : Compiler → Prop
  | create {host : Host} {s : Settings} {c : Compiler} : create host s = .ok c → Orderly c
  | step {c : Compiler} (op : Operation) : Orderly c → Orderly (c.after op)
  | restore {c : Compiler} (s : Snapshot) : c.Covers s → Orderly c → Orderly (c.restore s)

theorem Orderly.reachable (orderly : Orderly c) : Reachable c := by
  induction orderly with
  | create created => exact .create created
  | step op _ ih => exact ih.step op
  | restore s _ _ ih => exact ih.restore s

theorem Idle.after (idle : c.Idle) (op : Operation) : (c.after op).Idle ∨ (c.after op).Working := by
  cases inBody : op.inBody with
  | true =>
    exact Or.inl ((inBody_keeps idle_invariant inBody).after idle)
  | false =>
    cases op with
    | beginWord name signature =>
      rw [Compiler.after, Operation.run, stateAfter_ignore]
      exact ((beginWord_idle name signature).after idle).symm
    | endWord =>
      rw [Compiler.after, Operation.run, stateAfter_ignore,
        stateAfter_of_error (endWord_none idle.definition)]
      exact Or.inl idle
    | abandonWord =>
      left
      show c.abandonWord.Idle
      rw [abandonWord, idle.definition]
      exact idle
    | definePrimitive name inputs outputs clobbers body =>
      exact Or.inl ((ignore_keeps (definePrimitive_idle _ _ _ _ _)).after idle)
    | bindExternal name inputs outputs address =>
      exact Or.inl ((ignore_keeps (bindExternal_idle _ _ _ _)).after idle)
    | resolveExternal name inputs outputs =>
      exact Or.inl ((ignore_keeps (resolveExternal_idle _ _ _)).after idle)
    | invoke id args =>
      rw [Compiler.after, Operation.run, stateAfter_ignore]
      exact Or.inl (idle.restored (((follows_session c).invoke id args).after idle.follows)
        (.of_invoke idle.follows idle.definition id args))
    | _ => cases inBody

theorem Working.after (working : c.Working) (op : Operation) :
    (c.after op).Idle ∨ (c.after op).Working := by
  by_cases ended : op = .endWord
  · subst ended
    rw [Compiler.after, Operation.run, stateAfter_ignore]
    exact Or.inl ((endWord_idle.after working).elim id id)
  by_cases abandoned : op = .abandonWord
  · subst abandoned
    exact Or.inl working.abandonWord
  · obtain ⟨b, idle, opened⟩ := working
    exact Or.inr ⟨b, idle, opened.after ended abandoned⟩

theorem Working.clean (working : c.Working) : c.Clean := by
  obtain ⟨b, idle, opened⟩ := working
  exact opened.clean idle.clean

theorem builtIn_idle : Keeps Idle builtIn fun _ => True := by
  refine seq (keeps_forM fun i _ => ?_) fun _ => keeps_forM fun p _ =>
    ignore_keeps (definePrimitive_idle _ _ _ _ _)
  intro c idle
  exact ⟨idle.entered rfl rfl rfl nofun, trivial⟩

theorem create_idle {host : Host} {s : Settings} (created : create host s = .ok c) : c.Idle := by
  obtain ⟨heap', stackCells, thunk, consistent, defined⟩ := create_builtIn created
  refine (Runs.of_ok builtIn_idle ⟨rfl, .refl consistent Dictionary.wellFormed_empty rfl, ?_⟩
    defined).1
  intro id e code found
  cases found

/-- In an orderly run every finished word is clean at all times. -/
theorem Orderly.idle_or_working (orderly : Orderly c) : c.Idle ∨ c.Working := by
  induction orderly with
  | create created => exact Or.inl (create_idle created)
  | step op _ ih => exact ih.elim (·.after op) (·.after op)
  | @restore c s covers orderly ih =>
    obtain ⟨b, follows⟩ := (orderly.reachable.restore s).follows
    obtain ⟨b', follows'⟩ := orderly.reachable.follows
    have clean : c.Clean := ih.elim (·.clean) (·.clean)
    exact Or.inl ⟨rfl, .refl follows.heap.consistent follows.dictionary rfl,
      clean.restore follows'.dictionary covers⟩

theorem Orderly.idle (orderly : Orderly c) (definition : c.definition = none) : c.Idle := by
  rcases orderly.idle_or_working with idle | ⟨b, -, opened⟩
  · exact idle
  · exact absurd definition opened.not_idle

/-- A snapshot taken between definitions can be restored at any later time. -/
theorem Orderly.restoreSince (orderly : Orderly c) (taken : Orderly t)
    (definition : t.definition = none) (since : Since t c) : Orderly (c.restore t.snapshot) := by
  have idle := taken.idle definition
  exact orderly.restore _ (idle.clean.covers (since.follows idle.follows))

end ForthJit.Compiler
