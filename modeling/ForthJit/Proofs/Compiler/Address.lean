import ForthJit.Proofs.Compiler.Tiling

/-!
# Addresses lead to code

Whoever has asked for the address of a word will jump there.  A word that can be called was
published when its definition ended, and no operation changes published code, so its address leads
to the words that it had then.  Only restoring a snapshot can take them away: one that was taken
inside the definition keeps the entry of the word and cuts its code off.  `Uncut` runs restore any
other snapshot, at any time and in any order.
-/

namespace ForthJit.Compiler

variable {b c c' : Compiler} {id : EntryId} {code : CompiledWord}

/-! ## What an operation can add -/

/-- What can have become of `b`, which has no open definition: a definition was begun, the
dictionary is the same, a word that is not compiled was entered, or a definition has ended. -/
inductive Next (b : Compiler) : Compiler → Prop
  | opened {c : Compiler} : b.Opened c → Next b c
  | same {c : Compiler} : c.definition = none → c.dictionary = b.dictionary → Next b c
  | entered {heap : CodeHeap} {e : Entry} : (∀ code, e.kind ≠ .compiled code) →
      Next b (entered { b with heap } e)
  | defined {c c' : Compiler} {w : Definition} {id : EntryId} : b.Opened c →
      c.definition = some w → finishWord w c = .ok id c' → Next b c'

theorem Next.of_restored (restored : Restored b c) : Next b c :=
  .same restored.definition restored.dictionary

theorem Next.of_endWord (start : b.Follows b) (opened : b.Opened c) :
    Next b (stateAfter endWord c) := by
  cases outcome : endWord c with
  | error e c' =>
    rw [stateAfter_of_error outcome]
    exact .of_restored (opened.failed start.dictionary outcome)
  | ok id c' =>
    rw [stateAfter_of_ok outcome]
    obtain ⟨w, isOpen, -⟩ := opened.isOpen
    exact .defined opened isOpen (endWord_finished isOpen outcome)

theorem Next.of_beginWord (start : b.Follows b) (idle : b.definition = none) (name : String)
    (signature : Signature) : Next b (stateAfter (beginWord name signature) b) := by
  cases outcome : beginWord name signature b with
  | ok id c =>
    rw [stateAfter_of_ok outcome]
    exact .opened (opened_of_begun start outcome)
  | error e c =>
    rw [stateAfter_of_error outcome]
    rcases beginWord_error outcome with rfl | ⟨e, heap, -, rfl⟩ <;> exact .same idle rfl

theorem Next.of_definePrimitive (start : b.Follows b) (idle : b.definition = none) (name : String)
    (inputs outputs : Nat) (clobbers : RegSet) (body : List InstrWord) :
    Next b (stateAfter (definePrimitive name inputs outputs clobbers body) b) := by
  have steady := emitting_keeps (opened_invariant b).toDraftInvariant
    fun _ _ => Emit.primitiveBody_confined inputs outputs clobbers body
  rcases definePrimitive_cases name inputs outputs clobbers body b with ⟨e, c, failed, same⟩ |
    ⟨id, c0, begun, ⟨e, c1, failed, same⟩ | ⟨c1, emitted, same⟩⟩
  · have next := of_beginWord start idle name { inputs, outputs, quiet := true }
    rw [stateAfter_of_error failed] at next
    rwa [stateAfter_of_error same]
  · rw [stateAfter_of_error same]
    have opened := steady.of_error (opened_of_begun start begun) failed
    exact .of_restored (opened.abandoned start.dictionary)
  · unfold stateAfter
    rw [same]
    exact .of_endWord start (steady.of_ok (opened_of_begun start begun) emitted).1

theorem Next.of_bindExternal (idle : b.definition = none) (name : String)
    (inputs outputs address : Nat) :
    Next b (stateAfter (bindExternal name inputs outputs address) b) := by
  rcases bindExternal_cases name inputs outputs address b with ⟨e, refused⟩ |
    ⟨-, -, -, ⟨e, heap, -, refused⟩ | ⟨slot, heap, -, bound⟩⟩
  · rw [stateAfter_of_error refused]
    exact .same idle rfl
  · rw [stateAfter_of_error refused]
    exact .same idle rfl
  · rw [stateAfter_of_ok bound]
    exact .entered nofun

theorem idle_invariant_of (d : Dictionary) :
    BodyInvariant fun c => c.definition = none ∧ c.dictionary = d where
  heap := fun idle _ => idle
  draft := fun idle isOpen _ => absurd (idle.1.symm.trans isOpen) nofun
  addCall := fun idle isOpen _ => absurd (idle.1.symm.trans isOpen) nofun

/-- Between definitions. -/
theorem Next.of_idle (start : b.Follows b) (idle : b.definition = none) (op : Operation) :
    Next b (b.after op) := by
  cases inBody : op.inBody with
  | true =>
    have kept := (inBody_keeps (idle_invariant_of b.dictionary) inBody).after (s := b) ⟨idle, rfl⟩
    exact .same kept.1 kept.2
  | false =>
    cases op with
    | beginWord name signature =>
      rw [after, Operation.run, stateAfter_ignore]
      exact .of_beginWord start idle name signature
    | endWord =>
      rw [after, Operation.run, stateAfter_ignore, stateAfter_of_error (endWord_none idle)]
      exact .same idle rfl
    | abandonWord =>
      have same : b.after .abandonWord = b := by
        show b.abandonWord = b
        rw [abandonWord, idle]
      rw [same]
      exact .same idle rfl
    | definePrimitive name inputs outputs clobbers body =>
      rw [after, Operation.run, stateAfter_ignore]
      exact .of_definePrimitive start idle name inputs outputs clobbers body
    | bindExternal name inputs outputs address =>
      rw [after, Operation.run, stateAfter_ignore]
      exact .of_bindExternal idle name inputs outputs address
    | resolveExternal name inputs outputs =>
      rw [after, Operation.run, stateAfter_ignore]
      rcases resolveExternal_cases name inputs outputs b with unresolved | ⟨address, found⟩
      · rw [stateAfter_of_error unresolved]
        exact .same idle rfl
      · rw [stateAfter_congr found]
        exact .of_bindExternal idle name inputs outputs address
    | invoke id args =>
      rw [after, Operation.run, stateAfter_ignore]
      exact .of_restored (.of_invoke start idle id args)
    | _ => cases inBody

/-- While a definition is open. -/
theorem Next.of_opened (start : b.Follows b) (opened : b.Opened c) (op : Operation) :
    Next b (c.after op) := by
  by_cases ended : op = .endWord
  · subst ended
    rw [after, Operation.run, stateAfter_ignore]
    exact .of_endWord start opened
  by_cases abandoned : op = .abandonWord
  · subst abandoned
    exact .of_restored (opened.abandoned start.dictionary)
  · exact .opened (opened.after ended abandoned)

/-- Whatever was restored before, a compiler has no open definition, or one that was begun in a
compiler without. -/
theorem Reachable.base (reachable : Reachable c) :
    ∃ b : Compiler, b.definition = none ∧ b.Follows b ∧ (c = b ∨ b.Opened c) := by
  have idle : ∀ {c : Compiler}, Reachable c → c.definition = none →
      ∃ b : Compiler, b.definition = none ∧ b.Follows b ∧ (c = b ∨ b.Opened c) := by
    intro c reachable definition
    obtain ⟨_, follows⟩ := reachable.follows
    exact ⟨c, definition, .refl follows.heap.consistent follows.dictionary definition, Or.inl rfl⟩
  induction reachable with
  | create created => exact idle (.create created) (create_idle created).definition
  | restore s reachable => exact idle (.restore s reachable) rfl
  | @step c op reachable ih =>
    obtain ⟨b, definition, start, standing⟩ := ih
    have next : Next b (c.after op) := by
      rcases standing with rfl | opened
      · exact .of_idle start definition op
      · exact .of_opened start opened op
    generalize stepped : c.after op = c' at next
    rw [← stepped]
    cases next with
    | opened opened => exact ⟨b, definition, start, Or.inr (stepped ▸ opened)⟩
    | same closed _ => exact idle (.step op reachable) (stepped ▸ closed)
    | entered other => exact idle (.step op reachable) (stepped ▸ definition)
    | defined opened isOpen finished =>
      exact idle (.step op reachable) (stepped ▸ (finishWord_clean opened isOpen finished).1)

/-! ## Words that can be called -/

/-- The code of the entry `id`, if it is a compiled word that can be called. -/
def callable? (c : Compiler) (id : EntryId) : Option CompiledWord :=
  (c.dictionary.get? id).bind fun e => if e.visible then e.compiled? else none

theorem callable?_eq_some : c.callable? id = some code ↔
    ∃ e, c.dictionary.get? id = some e ∧ e.visible = true ∧ e.kind = .compiled code := by
  unfold callable?
  constructor
  · intro callable
    obtain ⟨e, found, shown⟩ := Option.bind_eq_some_iff.1 callable
    split at shown
    · next visible => exact ⟨e, found, visible, Entry.compiled?_eq_some.1 shown⟩
    · cases shown
  · rintro ⟨e, found, visible, kind⟩
    rw [found, Option.bind_some, if_pos visible, Entry.compiled?_eq_some.2 kind]

/-- The staged words of the entry `id`, if it is a compiled word that can be called. -/
def wordsOf? (c : Compiler) (id : EntryId) : Option (Array InstrWord) :=
  (c.callable? id).map fun code => c.heap.words code.layout.start code.layout.stop

theorem Follows.callable (start : b.Follows b) (follows : b.Follows c)
    (callable : b.callable? id = some code) : c.callable? id = some code := by
  obtain ⟨e, found, visible, kind⟩ := callable?_eq_some.1 callable
  obtain ⟨callers, found'⟩ := start.kept follows found
  exact callable?_eq_some.2 ⟨_, found', visible, kind⟩

theorem Follows.callable_older (start : b.Follows b) (follows : b.Follows c)
    (older : (id : Nat) < b.dictionary.size) (callable : c.callable? id = some code) :
    b.callable? id = some code := by
  obtain ⟨e, found, visible, kind⟩ := callable?_eq_some.1 callable
  obtain ⟨e0, found0, same⟩ := start.older follows older found
  rw [same] at visible kind
  exact callable?_eq_some.2 ⟨e0, found0, visible, kind⟩

theorem callable_restore (wellFormed : c.dictionary.WellFormed) {s : Snapshot} :
    (c.restore s).callable? id = some code ↔
      (id : Nat) < s.entries ∧ c.callable? id = some code := by
  have found : (c.restore s).dictionary.get? id =
      if (id : Nat) < s.entries then (c.dictionary.get? id).map (·.upTo s.entries) else none :=
    Dictionary.get?_truncate wellFormed id
  rw [callable?_eq_some, callable?_eq_some, found]
  split
  · next kept =>
    constructor
    · rintro ⟨e, cut, visible, kind⟩
      obtain ⟨e0, found0, rfl⟩ := Option.map_eq_some_iff.1 cut
      exact ⟨kept, e0, found0, visible, kind⟩
    · rintro ⟨-, e, found0, visible, kind⟩
      exact ⟨e.upTo s.entries, by rw [found0]; rfl, visible, kind⟩
  · next cut =>
    constructor
    · rintro ⟨e, none, -⟩
      cases none
    · exact fun kept => absurd kept.1 cut

/-- What can be called and could not be before is the word whose definition has just ended. -/
theorem Next.callable (start : b.Follows b) (next : Next b c) (follows : b.Follows c)
    (absent : b.callable? id = none) (callable : c.callable? id = some code) :
    c.definition = none ∧ code.layout.stop ≤ c.heap.published := by
  have new : b.dictionary.size ≤ id := by
    by_contra older
    rw [start.callable_older follows (Nat.lt_of_not_le older) callable] at absent
    cases absent
  obtain ⟨e, found, visible, kind⟩ := callable?_eq_some.1 callable
  have bound : (id : Nat) < c.dictionary.size := Dictionary.get?_lt found
  cases next with
  | opened opened =>
    obtain ⟨w, isOpen, -⟩ := opened.isOpen
    rw [opened.newest] at bound
    obtain rfl : id = w.entry := by
      rw [opened.entry_eq isOpen]
      exact Nat.le_antisymm (Nat.le_of_lt_succ bound) new
    rw [(opened.follows.definition w isOpen).hidden e found] at visible
    cases visible
  | same _ same =>
    rw [same] at bound
    exact absurd bound (Nat.not_lt.2 new)
  | @entered heap e0 other =>
    exact absurd ((entered_new found new).1.symm.trans kind) (other code)
  | defined opened isOpen finished =>
    obtain ⟨p, laid, d, code', e0, e', ended⟩ := finishWord_ended opened isOpen finished
    rw [ended.size] at bound
    obtain rfl : id = b.dictionary.size := Nat.le_antisymm (Nat.le_of_lt_succ bound) new
    obtain rfl := Option.some.inj (found.symm.trans ended.after)
    obtain rfl := EntryKind.compiled.inj (kind.symm.trans ended.kind)
    refine ⟨(finishWord_clean opened isOpen finished).1, ?_⟩
    rw [ended.published, ended.here_eq]

/-! ## Code that is kept -/

/-- `b` ends with the word `id`, which is published, and has nothing else but older words. -/
structure EndsWith (b : Compiler) (id : EntryId) (code : CompiledWord) : Prop where
  start : b.Follows b
  size : b.dictionary.size = id + 1
  callable : b.callable? id = some code
  here : b.heap.here = code.layout.stop
  published : b.heap.published = code.layout.stop
  constants : b.heap.constants.used = 0
  data : b.heap.data.used = 0
  table : b.heap.table.used = 0

/-- `c` still has the word `id` with the code `code`, which are `words`. -/
def Stands (id : EntryId) (code : CompiledWord) (words : Array InstrWord) (c : Compiler) : Prop :=
  ∃ b : Compiler, b.EndsWith id code ∧ b.Follows c ∧
    words = b.heap.words code.layout.start code.layout.stop

/-- Cutting a compiler without an open definition leaves one that it follows. -/
theorem Follows.cut (follows : c.Follows c) (idle : c.definition = none) {n stop : Nat}
    (enough : n ≤ c.dictionary.size) (published : stop ≤ c.heap.published) :
    (c.restore ⟨n, stop, 0, 0, 0⟩).Follows c := by
  have consistent := follows.heap.consistent
  have below := consistent.published_le
  have here : (c.heap.rewind ⟨stop, 0, 0, 0⟩).here = stop := by
    show (c.heap.staged.shrink stop).size = stop
    rw [Array.size_shrink]
    exact Nat.min_eq_left (Nat.le_trans published below)
  have word : ∀ i < stop, c.heap.word? i = (c.heap.rewind ⟨stop, 0, 0, 0⟩).word? i := by
    intro i low
    show _ = (c.heap.staged.shrink stop)[i]?
    rw [CodeHeap.getElem?_shrink, if_pos low]
    rfl
  have region : ∀ r : Region, (r.rewind 0).Extends r := fun r =>
    ⟨rfl, rfl, by simp [Region.rewind], fun i live => absurd live (by simp [Region.rewind])⟩
  have length : (c.heap.rewind ⟨stop, 0, 0, 0⟩).published = stop := Nat.min_eq_right published
  have size : (c.dictionary.truncate n).size = n := by
    rw [Dictionary.size_truncate]
    exact Nat.min_eq_right enough
  refine ⟨⟨CodeHeap.rewind_consistent consistent _, ?_, consistent, ?_⟩, follows.dictionary, ?_,
    fun w isOpen => by cases idle.symm.trans isOpen⟩
  · refine ⟨rfl, rfl, rfl, ?_, fun i live => word i ?_, fun i live => rfl, region _, region _,
      region _⟩
    · exact Nat.le_trans (Nat.le_of_eq length) published
    · exact Nat.lt_of_lt_of_eq live length
  · refine ⟨Nat.le_trans (Nat.le_of_eq here) (Nat.le_trans published below), fun i low => word i ?_⟩
    exact Nat.lt_of_lt_of_eq low here
  · show Dictionary.SharesBelow _ (c.dictionary.truncate n).size c.dictionary
    rw [size]
    exact ⟨enough, fun i low =>
      ((Dictionary.SharesBelow.truncate follows.dictionary (Nat.le_refl n) enough).entries i
        low).symm⟩

/-- A word that is published between definitions stands. -/
theorem Stands.of_idle (follows : c.Follows c) (idle : c.definition = none)
    (callable : c.callable? id = some code) (published : code.layout.stop ≤ c.heap.published) :
    Stands id code (c.heap.words code.layout.start code.layout.stop) c := by
  obtain ⟨e, found, -⟩ := callable?_eq_some.1 callable
  have bound : (id : Nat) + 1 ≤ c.dictionary.size := Dictionary.get?_lt found
  have cut := follows.cut idle bound published
  have below := follows.heap.consistent.published_le
  have staged :
      (c.heap.staged.shrink code.layout.stop) = c.heap.staged.extract 0 code.layout.stop :=
    Array.shrink_eq_take
  refine ⟨_, ⟨.refl cut.heap.base (follows.dictionary.truncate _) rfl, ?_, ?_, ?_, ?_, ?_, ?_, ?_⟩,
    cut, ?_⟩
  · exact (Dictionary.size_truncate _).trans (Nat.min_eq_right bound)
  · exact (callable_restore follows.dictionary).2 ⟨Nat.lt_succ_self id, callable⟩
  · show (c.heap.staged.shrink code.layout.stop).size = _
    rw [Array.size_shrink]
    exact Nat.min_eq_left (Nat.le_trans published below)
  · exact Nat.min_eq_right published
  · exact Nat.min_zero _
  · exact Nat.min_zero _
  · exact Nat.min_zero _
  · show c.heap.staged.extract _ _ = (c.heap.staged.shrink code.layout.stop).extract _ _
    rw [staged, Array.extract_extract]
    simp

variable {words : Array InstrWord}

section

variable (stands : Stands id code words c)

include stands

theorem Stands.after (op : Operation) :
    Stands id code words (c.after op) := by
  obtain ⟨b, ends, follows, rfl⟩ := stands
  exact ⟨b, ends, follows.after op, rfl⟩

/-- Restoring a snapshot that keeps the entry and the code. -/
theorem Stands.restore {s : Snapshot}
    (kept : (id : Nat) < s.entries) (covered : code.layout.stop ≤ s.heap.code) :
    Stands id code words (c.restore s) := by
  obtain ⟨b, ends, follows, rfl⟩ := stands
  refine ⟨b, ends, follows.restore (ends.size ▸ kept) ⟨ends.here ▸ covered, ?_, ?_, ?_⟩, rfl⟩
  · rw [ends.constants]
    exact Nat.zero_le _
  · rw [ends.data]
    exact Nat.zero_le _
  · rw [ends.table]
    exact Nat.zero_le _

theorem Stands.callable : c.callable? id = some code := by
  obtain ⟨b, ends, follows, -⟩ := stands
  exact ends.start.callable follows ends.callable

theorem Stands.published :
    code.layout.stop ≤ c.heap.published := by
  obtain ⟨b, ends, follows, -⟩ := stands
  rw [← ends.published]
  exact follows.heap.extended.published

theorem Stands.words_eq :
    words = c.heap.words code.layout.start code.layout.stop := by
  obtain ⟨b, ends, follows, rfl⟩ := stands
  apply Array.ext_getElem?
  intro i
  rw [CodeHeap.words, CodeHeap.words, Array.getElem?_extract, Array.getElem?_extract]
  have longer : b.heap.staged.size ≤ c.heap.staged.size := follows.heap.shares.here
  have size : b.heap.staged.size = code.layout.stop := ends.here
  rw [Nat.min_eq_left size.ge, Nat.min_eq_left (size ▸ longer)]
  split
  · next low =>
    refine (follows.heap.shares.words _ ?_).symm
    show _ < b.heap.staged.size
    omega
  · rfl

end

/-! ## Runs that keep the code of a word -/

/-- Any operations, and any snapshots restored at any time, unless one keeps the entry `id` of a
word and cuts its code off.  The words that it had when its definition ended are recorded. -/
inductive Uncut (id : EntryId) : Option (Array InstrWord) → Compiler → Prop
  | create {host : Host} {s : Settings} {c : Compiler} : create host s = .ok c →
      Uncut id (c.wordsOf? id) c
  | step {record : Option (Array InstrWord)} {c : Compiler} (op : Operation) : Uncut id record c →
      Uncut id (if (c.callable? id).isSome then record else (c.after op).wordsOf? id) (c.after op)
  | restore {record : Option (Array InstrWord)} {c : Compiler} (s : Snapshot) :
      Uncut id record c →
      (∀ code, c.callable? id = some code → (id : Nat) < s.entries →
        code.layout.stop ≤ s.heap.code) →
      Uncut id record (c.restore s)

variable {record : Option (Array InstrWord)}

theorem Uncut.reachable (uncut : Uncut id record c) : Reachable c := by
  induction uncut with
  | create created => exact .create created
  | step op _ ih => exact ih.step op
  | restore s _ _ ih => exact ih.restore s

theorem Uncut.steps (ops : List Operation) (uncut : ∃ record, Uncut id record c) :
    ∃ record, Uncut id record (ops.foldl after c) :=
  List.foldlRecOn (motive := fun c => ∃ record, Uncut id record c) ops after uncut
    fun _ ⟨_, uncut⟩ op _ => ⟨_, uncut.step op⟩

/-- A word of a new compiler stands. -/
theorem create_stands {host : Host} {s : Settings} (created : create host s = .ok c)
    (callable : c.callable? id = some code) :
    Stands id code (c.heap.words code.layout.start code.layout.stop) c := by
  have built : Built False (fun _ _ => True) (fun _ => []) c :=
    .of_create (fun _ _ _ _ => trivial) created
  obtain ⟨e, found, -, kind⟩ := callable?_eq_some.1 callable
  refine .of_idle built.idle.follows built.idle.definition callable ?_
  rw [built.tiled.published]
  exact (built.made id e code found kind).stop_le

/-- A word that an operation has made callable stands. -/
theorem Reachable.stands_after (reachable : Reachable c) (op : Operation)
    (absent : c.callable? id = none) (callable : (c.after op).callable? id = some code) :
    Stands id code ((c.after op).heap.words code.layout.start code.layout.stop) (c.after op) := by
  obtain ⟨b, definition, start, standing⟩ := reachable.base
  have next : Next b (c.after op) ∧ b.Follows c := by
    rcases standing with rfl | opened
    · exact ⟨.of_idle start definition op, start⟩
    · exact ⟨.of_opened start opened op, opened.follows⟩
  have absent' : b.callable? id = none := by
    cases before : b.callable? id with
    | none => rfl
    | some code' => exact absurd (absent.symm.trans (start.callable next.2 before)) nofun
  have follows := next.2.after op
  obtain ⟨idle, published⟩ := next.1.callable start follows absent' callable
  exact .of_idle (.refl follows.heap.consistent follows.dictionary idle) idle callable published

theorem Uncut.stands (uncut : Uncut id record c) (callable : c.callable? id = some code) :
    ∃ words, record = some words ∧ Stands id code words c := by
  induction uncut generalizing code with
  | create created =>
    refine ⟨_, ?_, create_stands created callable⟩
    rw [wordsOf?, callable]
    rfl
  | @step record c op uncut ih =>
    cases before : c.callable? id with
    | none =>
      refine ⟨_, ?_, uncut.reachable.stands_after op before callable⟩
      rw [Option.isSome_none, if_neg Bool.false_ne_true, wordsOf?, callable]
      rfl
    | some code' =>
      obtain ⟨words, recorded, stands⟩ := ih before
      have later := stands.after op
      obtain rfl := Option.some.inj (later.callable.symm.trans callable)
      exact ⟨words, recorded, later⟩
  | @restore record c s uncut covers ih =>
    obtain ⟨_, follows⟩ := uncut.reachable.follows
    obtain ⟨kept, before⟩ := (callable_restore follows.dictionary).1 callable
    obtain ⟨words, recorded, stands⟩ := ih before
    exact ⟨words, recorded, stands.restore kept (covers code before kept)⟩

/-! ## Addresses -/

/-- `record` holds the words of `code`, which are all published. -/
structure Backed (c : Compiler) (code : CompiledWord) (record : Option (Array InstrWord)) :
    Prop where
  published : code.layout.stop ≤ c.heap.published
  recorded : record = some (c.heap.words code.layout.start code.layout.stop)
  executable : ∀ i, code.layout.start ≤ i → i < code.layout.stop →
    c.heap.word? i = some (c.heap.executableWord i)

theorem Stands.backed (stands : Stands id code words c) : c.Backed code (some words) := by
  have published := stands.published
  have same := stands.words_eq
  obtain ⟨b, -, follows, -⟩ := stands
  exact ⟨published, congrArg some same,
    fun i _ high => follows.heap.consistent.copied i (Nat.lt_of_lt_of_le high published)⟩

theorem ensurePublished_done {stop : Nat} {h : CodeHeap} (done : stop ≤ h.published) :
    CodeHeap.ensurePublished stop h = .ok () h := by
  unfold CodeHeap.ensurePublished
  rw [bind_get, if_neg (Nat.not_lt.2 done)]
  rfl

/-- A word that is all published is not touched by asking where it is. -/
theorem addresses_of_published {e : Entry} (found : c.dictionary.get? id = some e)
    (kind : e.kind = .compiled code) (visible : e.visible = true)
    (published : code.layout.stop ≤ c.heap.published) :
    entryAddress id c = .ok (c.heap.addressOf code.layout.entry) c ∧
      epilogueAddress id c = .ok (c.heap.addressOf code.layout.epilogue) c := by
  have done := onHeap_ok (ensurePublished_done published)
  unfold entryAddress epilogueAddress
  rw [bind_of_ok (entry_some found), bind_of_ok (entry_some found), kind]
  dsimp only
  rw [if_pos visible, if_pos visible, bind_of_ok done, bind_of_ok done]
  exact ⟨rfl, rfl⟩

/-- A word that cannot be called has no address. -/
theorem addresses_of_hidden {e : Entry} (found : c.dictionary.get? id = some e)
    (kind : e.kind = .compiled code) (hidden : ¬e.visible = true) :
    entryAddress id c = .error (.definitionInProgress e.name) c ∧
      epilogueAddress id c = .error (.definitionInProgress e.name) c := by
  unfold entryAddress epilogueAddress
  rw [bind_of_ok (entry_some found), bind_of_ok (entry_some found), kind]
  dsimp only
  rw [if_neg hidden, if_neg hidden]
  exact ⟨rfl, rfl⟩

/-- Whatever was done and restored before, unless that has cut the code of the word `id` off: if the
address of the word or of its exit is given, then all of it is published, with the words that it had
when its definition ended.  The addresses are given whenever the word can be called. -/
theorem address_backed (uncut : Uncut id record c) {e : Entry}
    (found : c.dictionary.get? id = some e) (kind : e.kind = .compiled code) :
    (∀ address c', entryAddress id c = .ok address c' →
        address = c'.heap.addressOf code.layout.entry ∧ c'.Backed code record) ∧
      (∀ address c', epilogueAddress id c = .ok address c' →
        address = c'.heap.addressOf code.layout.epilogue ∧ c'.Backed code record) ∧
      (e.visible = true → entryAddress id c = .ok (c.heap.addressOf code.layout.entry) c ∧
        epilogueAddress id c = .ok (c.heap.addressOf code.layout.epilogue) c) := by
  by_cases visible : e.visible = true
  · obtain ⟨words, rfl, stands⟩ := uncut.stands (callable?_eq_some.2 ⟨e, found, visible, kind⟩)
    have backed := stands.backed
    obtain ⟨entry, epilogue⟩ := addresses_of_published found kind visible backed.published
    refine ⟨fun address c' ok => ?_, fun address c' ok => ?_, fun _ => ⟨entry, epilogue⟩⟩
    · cases entry.symm.trans ok
      exact ⟨rfl, backed⟩
    · cases epilogue.symm.trans ok
      exact ⟨rfl, backed⟩
  · obtain ⟨entry, epilogue⟩ := addresses_of_hidden found kind visible
    refine ⟨fun address c' ok => ?_, fun address c' ok => ?_, fun shown => absurd shown visible⟩
    · cases entry.symm.trans ok
    · cases epilogue.symm.trans ok

/-- After a word has ended, a snapshot from inside a later definition is restored while that is
still open, then an older snapshot and then the first again, which is no longer of any use. -/
theorem address_backed_out_of_order :
    ∃ c record e code address, Uncut 29 record c ∧ c.dictionary.get? 29 = some e ∧
      e.kind = .compiled code ∧ code.layout.stop = 164 ∧ entryAddress 29 c = .ok address c ∧
        address = c.heap.addressOf code.layout.entry ∧ c.Backed code record := by
  let define : List Operation := [.beginWord "x" { inputs := 0, outputs := 1 }, .literal 1,
    .word "drop", .literal 2, .word "drop", .literal 3, .word "drop", .literal 4, .endWord]
  let other : List Operation := [.beginWord "z" { inputs := 0, outputs := 1 }, .literal 7, .endWord]
  let ended (b : Compiler) := define.foldl after b
  let inside (b : Compiler) := (ended b).after (.beginWord "y" { inputs := 1, outputs := 1 })
  let renewed (b : Compiler) := other.foldl after ((inside b).restore (inside b).snapshot)
  let older (b : Compiler) := (renewed b).restore (ended b).snapshot
  let last (b : Compiler) := (older b).restore (inside b).snapshot
  let stop? (c : Compiler) := (c.callable? 29).map (·.layout.stop)
  have state : (create {} {}).toOption.map (fun b =>
      (stop? (inside b), stop? (renewed b), stop? (older b), stop? (last b),
        (inside b).snapshot.heap.code, (ended b).snapshot.heap.code)) =
      some (some 164, some 164, some 164, some 164, 167, 164) := by
    decide +kernel
  obtain ⟨b, created, state⟩ := toOption_map.1 state
  simp only [Prod.mk.injEq] at state
  obtain ⟨first, second, third, final, behind, closing⟩ := state
  have covers : ∀ {c : Compiler} {s : Snapshot}, stop? c = some 164 → 164 ≤ s.heap.code →
      ∀ code, c.callable? 29 = some code → 29 < s.entries → code.layout.stop ≤ s.heap.code := by
    intro c s stop enough code callable _
    simp only [stop?, callable, Option.map_some, Option.some.injEq] at stop
    omega
  have start : ∃ record, Uncut 29 record b := ⟨_, .create created⟩
  obtain ⟨record, uncut⟩ := Uncut.steps define start
  obtain ⟨record, uncut⟩ := Uncut.steps other
    ⟨_, (uncut.step _).restore (inside b).snapshot (covers first (by omega))⟩
  have run := (uncut.restore (ended b).snapshot (covers second (by omega))).restore
    (inside b).snapshot (covers third (by omega))
  obtain ⟨code, callable, stop⟩ := Option.map_eq_some_iff.1 final
  obtain ⟨e, found, visible, kind⟩ := callable?_eq_some.1 callable
  obtain ⟨backed, -, given⟩ := address_backed run found kind
  exact ⟨last b, _, e, code, _, run, found, kind, stop,
    (given visible).1, backed _ _ (given visible).1⟩

theorem Reachable.steps (ops : List Operation) (reachable : Reachable c) :
    Reachable (ops.foldl after c) :=
  List.foldlRecOn ops after reachable fun _ reachable op _ => reachable.step op

/-- A snapshot that cuts a word off takes its code away for good: if its address is given, not all
of the word is published. -/
theorem Reachable.cut_unpublished (reachable : Reachable c) {s : Snapshot}
    (cut : s.heap.code < code.layout.stop) {address : Nat}
    (ok : entryAddress id (c.restore s) = .ok address c') :
    c'.heap.published < code.layout.stop := by
  have after : stateAfter (entryAddress id) (c.restore s) = c' := stateAfter_of_ok ok
  have here : c'.heap.here ≤ s.heap.code := by
    have short : (c.restore s).heap.here ≤ s.heap.code := by
      show (c.heap.staged.shrink s.heap.code).size ≤ s.heap.code
      rw [Array.size_shrink]
      exact Nat.min_le_left _ _
    rcases entryAddress_after id (c.restore s) with same | ⟨stop, published⟩
    · rwa [← after, same]
    · have staged := (CodeHeap.ensurePublished_same stop (c.restore s).heap).1
      rw [← after, published]
      exact Nat.le_trans (Nat.le_of_eq (congrArg Array.size staged)) short
  obtain ⟨b, follows⟩ := (reachable.restore s).follows
  have kept := ((Does.entryAddress id).keeps (follows_invariant b)).after follows
  rw [after] at kept
  have published := kept.heap.consistent.published_le
  omega

/-- So the address of a word need not lead to its code after a snapshot from inside its definition
was restored: not all of it is published, and what is defined next overwrites it. -/
theorem address_unbacked :
    ∃ b, create {} {} = .ok b ∧
      let inside := b.after (.beginWord "x" { inputs := 0, outputs := 1 })
      let ended := (drops.foldl after inside).after .endWord
      let cut := b.overwritten 1 drops []
      let c := b.overwritten 1 drops twoValues
      ∃ code, ended.callable? 29 = some code ∧
        (∃ address cut', entryAddress 29 cut = .ok address cut' ∧
          cut'.heap.published < code.layout.stop) ∧
        ∃ address c', entryAddress 29 c = .ok address c' ∧ code.layout.stop ≤ c'.heap.published ∧
          c'.heap.words code.layout.start code.layout.stop ≠
            ended.heap.words code.layout.start code.layout.stop := by
  let inside (b : Compiler) := b.after (.beginWord "x" { inputs := 0, outputs := 1 })
  let ended (b : Compiler) := (drops.foldl after (inside b)).after .endWord
  let cut := overwritten 1 drops []
  let c := overwritten 1 drops twoValues
  have state : (create {} {}).toOption.bind (fun b => ((ended b).callable? 29).bind fun code =>
      (success? (entryAddress 29) (cut b)).bind fun _ =>
        (success? (entryAddress 29) (c b)).map fun (_, c') =>
          decide ((inside b).snapshot.heap.code < code.layout.stop ∧
            code.layout.stop ≤ c'.heap.published ∧
            c'.heap.words code.layout.start code.layout.stop ≠
              (ended b).heap.words code.layout.start code.layout.stop)) = some true := by
    decide +kernel
  obtain ⟨b, created, state⟩ := toOption_bind.1 state
  obtain ⟨code, callable, state⟩ := Option.bind_eq_some_iff.1 state
  obtain ⟨address, cut', given, state⟩ := success?_bind.1 state
  obtain ⟨address', c', given', state⟩ := success?_map.1 state
  obtain ⟨short, published, differ⟩ := of_decide_eq_true state
  have reachable : Reachable (ended b) := .step _ (.steps _ (.step _ (.create created)))
  exact ⟨b, created, code, callable, ⟨address, cut', given,
    reachable.cut_unpublished short given⟩,
    address', c', given', published, differ⟩

end ForthJit.Compiler
