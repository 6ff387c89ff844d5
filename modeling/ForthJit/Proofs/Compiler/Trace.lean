import ForthJit.Proofs.Compiler.Ended

/-!
# What words are made of

A compiler forgets by which operations a word was defined.  A `Traced` run remembers: for every
entry it keeps the `Body` of the word, either the instruction words of a primitive or the operations
that were performed while its definition was open, each with the entry that it called and the words
that it staged.  `Traced.wrote` gives back the definition that a finished word once was, and
`Performed.acted` takes its operations apart into actions.
-/

namespace ForthJit

/-- How a compiled word came about. -/
inductive Body where
  | primitive (inputs outputs : Nat) (clobbers : RegSet) (words : List InstrWord)
  | operations (events : List Event)

def Body.events : Body → List Event
  | .primitive .. => []
  | .operations events => events

/-- The bodies of the words in a dictionary. -/
abbrev Trace := EntryId → Body

namespace Compiler

variable {raw : InstrWord → RegSet → Prop} {may : Action → Prop} {b c c0 c' : Compiler}
  {w : Definition} {id : EntryId} {deeds : List Deed}

/-! ## What deeds leave -/

theorem Acted.settings (acted : Acted may c0 deeds c) : c.settings = c0.settings :=
  (acted.worked.sameFrame (.refl c0)).1

theorem Acted.grown (acted : Acted may c0 deeds c) : Extends (fun _ => True) c0 c :=
  acted.extends fun _ _ _ a _ _ _ _ => .of_all (fun _ => Or.inr trivial) a

theorem Acted.logged (acted : Acted may c0 deeds c)
    (start : ∀ w, c0.definition = some w → Draft.Logged ⟨c0.heap, w⟩ (fun _ => True) []) :
    ∀ w, c.definition = some w → Draft.Logged ⟨c.heap, w⟩ (fun _ => True) [] := by
  intro w isOpen
  cases isOpen0 : c0.definition with
  | none => cases (acted.worked.idle isOpen0).1.symm.trans isOpen
  | some w0 =>
    obtain ⟨w', isOpen', -, logged⟩ := acted.grown w0 isOpen0 (start w0 isOpen0)
    obtain rfl := Option.some.inj (isOpen'.symm.trans isOpen)
    exact logged

/-- Deeds only add to a definition. -/
theorem Acted.advances (acted : Acted may c0 deeds c)
    (start : ∀ w, c0.definition = some w → Draft.Logged ⟨c0.heap, w⟩ (fun _ => True) [])
    {w0 : Definition} (isOpen0 : c0.definition = some w0) (isOpen : c.definition = some w) :
    Draft.Advances ⟨c0.heap, w0⟩ ⟨c.heap, w⟩ := by
  obtain ⟨w', isOpen', advances, -⟩ := acted.grown w0 isOpen0 (start w0 isOpen0)
  obtain rfl := Option.some.inj (isOpen'.symm.trans isOpen)
  exact advances

/-- What holds of every deed when it is done, and of words and patches that stay, holds at the
end. -/
theorem Acted.forall_deeds {P : Draft → Deed → Prop} (acted : Acted may c0 deeds c)
    (start : ∀ w, c0.definition = some w → Draft.Logged ⟨c0.heap, w⟩ (fun _ => True) [])
    (mono : ∀ d d' deed, d.Advances d' → P d deed → P d' deed)
    (each : ∀ deeds c w a d, Acted may c0 deeds c → c.definition = some w →
      Draft.Logged ⟨c.heap, w⟩ (fun _ => True) [] → a.Fits c w →
      a.emit c.settings ⟨c.heap, w⟩ = .ok () d → P d ⟨a, c.heap.here, d.heap.here⟩) :
    ∀ w, c.definition = some w → ∀ deed ∈ deeds, P ⟨c.heap, w⟩ deed := by
  induction acted with
  | start => exact fun w isOpen deed isDeed => absurd isDeed List.not_mem_nil
  | heap _ staged _ ih =>
    intro w isOpen deed isDeed
    refine mono _ _ deed ⟨.refl w, ?_⟩ (ih w isOpen deed isDeed)
    rw [staged]
    exact .refl _
  | @act deeds c w a d acted isOpen fits _ done ih =>
    rintro _ ⟨⟩ deed isDeed
    have logged := acted.logged start w isOpen
    rcases List.mem_append.1 isDeed with old | new
    · exact mono _ _ deed (a.logs _ _ _ _ done logged).1 (ih w isOpen deed old)
    · rw [List.mem_singleton.1 new]
      exact each deeds c w a d acted isOpen logged fits done

/-! ## Operations are deeds -/

theorem ignore_ok {α : Type} {m : CompileM α} (ok : (do let _ ← m : CompileM Unit) c = .ok () c') :
    ∃ a, m c = .ok a c' := by
  obtain ⟨a, c1, done, rest⟩ := bind_eq_ok.1 ok
  cases rest
  exact ⟨a, done⟩

/-- Every operation that succeeds on the open definition is carried out by deeds. -/
theorem Acted.operation (acted : Acted (·.Obeys raw) c0 deeds c) (isOpen : c.definition = some w)
    {op : Operation} (inBody : op.inBody = true) (obeys : op.Obeys raw)
    (ok : op.run c = .ok () c') :
    ∃ more, Carried (c.event w op) more ∧ Acted (·.Obeys raw) c0 (deeds ++ more) c' := by
  suffices own : ∃ more, Acted (·.Obeys raw) c more c' ∧
      Carried ⟨op, c.callee? w op, c.heap.here, c'.heap.here⟩ more by
    obtain ⟨more, next, carried⟩ := own
    refine ⟨more, ?_, acted.trans next⟩
    rwa [event, Compiler.after, stateAfter_of_ok ok]
  by_cases named : ∃ name, op = .word name
  · obtain ⟨name, rfl⟩ := named
    obtain ⟨w', c1, got, rest⟩ := bind_eq_ok.1 ok
    obtain ⟨rfl, isOpen'⟩ := active_ok got
    obtain rfl := Option.some.inj (isOpen.symm.trans isOpen')
    rw [callee?]
    by_cases isLocal : (w.locals.find? name).isSome = true
    · rw [if_pos isLocal] at rest ⊢
      have does : Does (·.Obeys raw) (getLocal name) (Alone (.getLocal name)) :=
        .emitting rfl (fun _ => rfl) trivial
      obtain ⟨_, next, rfl⟩ := does.of_ok rest
      exact ⟨_, next, .getLocal⟩
    · rw [if_neg isLocal] at rest ⊢
      obtain ⟨id, c2, known, called⟩ := bind_eq_ok.1 rest
      obtain ⟨rfl, found⟩ := find_ok known
      rw [found]
      obtain ⟨_, next, callee, rfl | ⟨body, rfl⟩⟩ :=
        (Does.call (fun _ => Action.Obeys.of_plain) id).of_ok called
      · exact ⟨_, next, .call rfl⟩
      · exact ⟨_, next, .inline rfl⟩
  · obtain ⟨more, next, carried⟩ := (Does.operation inBody obeys).of_ok ok
    exact ⟨more, next, carried (fun name same => named ⟨name, same⟩) c w⟩

/-! ## The body of a definition -/

/-- The definition that was begun as `c0` has become `c`, with the body `body`. -/
inductive Performed (raw : InstrWord → RegSet → Prop) (c0 : Compiler) : Body → Compiler → Prop
  | start : Performed raw c0 (.operations []) c0
  | primitive {w : Definition} {d : Draft} {inputs outputs : Nat} {clobbers : RegSet}
      {words : List InstrWord} : c0.definition = some w →
      (Action.primitive inputs outputs clobbers words).Fits c0 w → (∀ v ∈ words, raw v clobbers) →
      Emit.primitiveBody inputs outputs clobbers words c0.settings ⟨c0.heap, w⟩ = .ok () d →
      Performed raw c0 (.primitive inputs outputs clobbers words) (c0.drafted d)
  | step {events : List Event} {c c' : Compiler} {w : Definition} {op : Operation} :
      Performed raw c0 (.operations events) c → c.definition = some w → op.inBody = true →
      op.Obeys raw → op.run c = .ok () c' →
      Performed raw c0 (.operations (events ++ [c.event w op])) c'

end Compiler

/-- The deeds by which a body was carried out. -/
inductive Body.Done : Body → List Deed → Prop
  | primitive {inputs outputs : Nat} {clobbers : RegSet} {words : List InstrWord}
      {start stop : Nat} : Done (.primitive inputs outputs clobbers words)
        [⟨.primitive inputs outputs clobbers words, start, stop⟩]
  | operations {events : List Event} {parts : List (List Deed)} :
    List.Forall₂ Carried events parts → Done (.operations events) parts.flatten

/-- The deeds of each operation are among those of the body. -/
theorem Body.Done.carried {body : Body} {deeds : List Deed} (done : body.Done deeds) {event : Event}
    (member : event ∈ body.events) : ∃ part, Carried event part ∧ part ⊆ deeds := by
  cases done with
  | primitive => cases member
  | operations carried =>
    induction carried with
    | nil => cases member
    | cons first _ ih =>
      rcases List.mem_cons.1 member with rfl | later
      · exact ⟨_, first, List.subset_append_left _ _⟩
      · obtain ⟨part, isPart, within⟩ := ih later
        exact ⟨part, isPart, fun _ isDeed => List.mem_append_right _ (within isDeed)⟩

/-- Every deed is that of an operation, or the body is a primitive. -/
theorem Body.Done.origin {body : Body} {deeds : List Deed} (done : body.Done deeds) {deed : Deed}
    (member : deed ∈ deeds) :
    (∃ inputs outputs clobbers words, deed.action = .primitive inputs outputs clobbers words) ∨
      ∃ event ∈ body.events, ∃ part, Carried event part ∧ deed ∈ part := by
  cases done with
  | primitive =>
    rw [List.mem_singleton.1 member]
    exact Or.inl ⟨_, _, _, _, rfl⟩
  | operations carried =>
    right
    induction carried with
    | nil => cases member
    | cons first _ ih =>
      rcases List.mem_append.1 member with own | later
      · exact ⟨_, List.mem_cons_self, _, first, own⟩
      · obtain ⟨event, isEvent, rest⟩ := ih later
        exact ⟨event, List.mem_cons_of_mem _ isEvent, rest⟩

namespace Compiler

variable {raw : InstrWord → RegSet → Prop} {b c c0 c' c'' : Compiler} {w : Definition}
  {id : EntryId}
  {body : Body} {t t' : Trace} {l : Records}

theorem Performed.acted (performed : Performed raw c0 body c) :
    ∃ deeds, body.Done deeds ∧ Acted (·.Obeys raw) c0 deeds c := by
  induction performed with
  | start => exact ⟨_, .operations .nil, .start⟩
  | primitive isOpen fits obeys done =>
    exact ⟨_, .primitive, Acted.start.act isOpen fits obeys done⟩
  | step _ isOpen inBody obeys ok ih =>
    obtain ⟨_, done, acted⟩ := ih
    cases done with
    | operations carried =>
      obtain ⟨more, isMore, next⟩ := acted.operation isOpen inBody obeys ok
      refine ⟨_, .operations (List.rel_append carried (.cons isMore .nil)), ?_⟩
      rw [List.flatten_append, List.flatten_singleton]
      exact next

theorem Performed.worked (performed : Performed raw c0 body c) :
    Worked True (·.Obeys raw) c0 c := by
  obtain ⟨deeds, -, acted⟩ := performed.acted
  exact acted.worked

/-- In `c` the definition of the word `id` has just ended; its body was `body`. -/
inductive Wrote (raw : InstrWord → RegSet → Prop) (id : EntryId) (body : Body) : Compiler → Prop
  | mk {l : Records} {b c0 c c' : Compiler} {w : Definition} {name : String}
      {signature : Signature} {id0 id1 : EntryId} : Built True raw l b → b.dictionary.size = id →
      beginWord name signature b = .ok id0 c0 → Performed raw c0 body c → c.definition = some w →
      finishWord w c = .ok id1 c' → Wrote raw id body c'

theorem Wrote.idle (wrote : Wrote raw id body c) : c.Idle := by
  obtain ⟨built, -, begun, performed, isOpen, finished⟩ := wrote
  exact (built.define begun performed.worked isOpen finished).idle

theorem Wrote.size (wrote : Wrote raw id body c) : c.dictionary.size = id + 1 := by
  obtain ⟨built, rfl, begun, performed, isOpen, finished⟩ := wrote
  have opened := performed.worked.opened built.idle.follows begun
  obtain ⟨p, laid, d, code, e, e', ended⟩ := finishWord_ended opened isOpen finished
  exact ended.size

variable {name : String} {current : List Snapshot}

/-- A primitive that was defined is a word. -/
theorem Built.wrotePrimitive (built : Built True raw l c) {inputs outputs : Nat} {clobbers : RegSet}
    {words : List InstrWord} (obeys : ∀ v ∈ words, raw v clobbers)
    (ok : definePrimitive name inputs outputs clobbers words c = .ok id c') :
    Wrote raw c.dictionary.size (.primitive inputs outputs clobbers words) c' := by
  rcases definePrimitive_cases name inputs outputs clobbers words c with ⟨e, c1, -, failed⟩ |
    ⟨id0, c0, begun, ⟨e, c1, -, failed⟩ | ⟨c1, emitted, same⟩⟩
  · cases failed.symm.trans ok
  · cases failed.symm.trans ok
  · rw [same] at ok
    obtain ⟨w, d, isOpen, done, rfl⟩ := emitting_ok emitted
    have fits : (Action.primitive inputs outputs clobbers words).Fits c0 w := by
      obtain ⟨-, few, few', heap, -, rfl, rfl⟩ := beginWord_ok begun
      cases isOpen
      exact ⟨rfl, few, few'⟩
    exact .mk built rfl begun (.primitive isOpen fits obeys done) rfl (endWord_finished rfl ok)

theorem definePrimitive_failed (built : Built True raw l c) {inputs outputs : Nat}
    {clobbers : RegSet} {words : List InstrWord} {e : CompileError}
    (failed : definePrimitive name inputs outputs clobbers words c = .error e c') :
    c'.dictionary = c.dictionary := by
  have idle := built.idle
  have steady := emitting_keeps (opened_invariant c).toDraftInvariant
    fun _ _ => Emit.primitiveBody_confined inputs outputs clobbers words
  rcases definePrimitive_cases name inputs outputs clobbers words c with ⟨e1, c1, begun, same⟩ |
    ⟨id0, c0, begun, ⟨e1, c1, emitted, same⟩ | ⟨c1, emitted, same⟩⟩
  · cases same.symm.trans failed
    rcases beginWord_error begun with rfl | ⟨e, heap, -, rfl⟩ <;> rfl
  · cases same.symm.trans failed
    have opened := steady.of_error (opened_of_begun idle.follows begun) emitted
    exact (opened.abandoned idle.follows.dictionary).dictionary
  · have opened := (steady.of_ok (opened_of_begun idle.follows begun) emitted).1
    exact (opened.failed idle.follows.dictionary (same.symm.trans failed)).dictionary

/-! ## Older words -/

theorem Follows.trans (first : b.Follows c) (second : c.Follows c') : b.Follows c' := by
  have grown := first.heap.extended
  have table := first.heap.extended.table.used
  have entries : c.dictionary.SharesBelow b.dictionary.size c'.dictionary := by
    refine ⟨Nat.le_trans first.entries.size second.entries.size, fun i low => ?_⟩
    have cut : ∀ e : Entry, (e.upTo c.dictionary.size).upTo b.dictionary.size =
        e.upTo b.dictionary.size := by
      intro e
      have both : ∀ ids : List EntryId, (ids.filter (· < c.dictionary.size)).filter
          (· < b.dictionary.size) = ids.filter (· < b.dictionary.size) := by
        intro ids
        rw [List.filter_filter]
        refine List.filter_congr fun j _ => ?_
        by_cases low : (j : Nat) < b.dictionary.size
        · simp [low, Nat.lt_of_lt_of_le low first.entries.size]
        · simp [low]
      simp only [Entry.upTo, both]
    have same := congrArg (Option.map (·.upTo b.dictionary.size))
      (second.entries.entries i (Nat.lt_of_lt_of_le low first.entries.size))
    rw [Option.map_map, Option.map_map] at same
    simpa only [Function.comp_def, cut] using same
  refine ⟨⟨first.heap.base, grown.trans second.heap.extended, second.heap.consistent, ?_, ?_⟩,
    second.dictionary, first.entries.trans entries, fun w isOpen => ?_⟩
  · exact Nat.le_trans first.heap.shares.here second.heap.shares.here
  · intro i low
    exact (second.heap.shares.words i (Nat.lt_of_lt_of_le low first.heap.shares.here)).trans
      (first.heap.shares.words i low)
  · obtain ⟨newest, hidden, entry, older, mark, slots⟩ := second.definition w isOpen
    exact ⟨newest, hidden, Nat.le_trans first.entries.size entry,
      Nat.le_trans first.entries.size older,
      ⟨Nat.le_trans first.heap.shares.here mark.code,
        Nat.le_trans grown.constants.used mark.constants,
        Nat.le_trans grown.data.used mark.data, Nat.le_trans grown.table.used mark.slots⟩,
      fun slot member => Nat.le_trans first.heap.shares.here (slots slot member)⟩

theorem Continues.trans (first : b.Continues c) (second : c.Continues c') : b.Continues c' :=
  ⟨first.follows.trans second.follows, second.frame.1.trans first.frame.1,
    second.frame.2.trans first.frame.2⟩

/-- Every compiled word of `c` has the body that `t` says. -/
def Bodies (raw : InstrWord → RegSet → Prop) (t : Trace) (c : Compiler) : Prop :=
  ∀ id e code, c.dictionary.get? id = some e → e.kind = .compiled code →
    ∃ c', Wrote raw id (t id) c' ∧ c'.Continues c

theorem Bodies.of_continues (bodies : Bodies raw t b) (start : b.Follows b)
    (continues : b.Continues c) (older : ∀ id : Nat, id < b.dictionary.size → t' id = t id)
    (new : ∀ (id : Nat) e code, b.dictionary.size ≤ id → c.dictionary.get? id = some e →
      e.kind = .compiled code → ∃ c', Wrote raw id (t' id) c' ∧ c'.Continues c) :
    Bodies raw t' c := by
  intro id e code found kind
  by_cases old : (id : Nat) < b.dictionary.size
  · obtain ⟨e0, found0, same⟩ := start.older continues.follows old found
    rw [same] at kind
    obtain ⟨c', wrote, since⟩ := bodies id e0 code found0 kind
    rw [older id old]
    exact ⟨c', wrote, since.trans continues⟩
  · exact new id e code (Nat.le_of_not_lt old) found kind

theorem Bodies.of_same (bodies : Bodies raw t b) (start : b.Follows b) (continues : b.Continues c)
    (dictionary : c.dictionary = b.dictionary)
    (older : ∀ id : Nat, id < b.dictionary.size → t' id = t id) : Bodies raw t' c := by
  refine bodies.of_continues start continues older fun id e code new found _ => ?_
  rw [dictionary] at found
  exact absurd (Dictionary.get?_lt found) (Nat.not_lt.2 new)

/-- Other bodies for what is not there change nothing. -/
theorem Bodies.congr (bodies : Bodies raw t c) (start : c.Follows c)
    (older : ∀ id : Nat, id < c.dictionary.size → t' id = t id) : Bodies raw t' c :=
  bodies.of_same start (.refl start) rfl older

/-- The word that has just ended is the only new one. -/
theorem Bodies.add (bodies : Bodies raw t b) (start : b.Follows b) (continues : b.Continues c)
    (wrote : Wrote raw b.dictionary.size (t' b.dictionary.size) c)
    (older : ∀ id : Nat, id < b.dictionary.size → t' id = t id) : Bodies raw t' c := by
  refine bodies.of_continues start continues older fun id e code new found _ => ?_
  have bound : id < c.dictionary.size := Dictionary.get?_lt found
  rw [wrote.size] at bound
  obtain rfl : id = b.dictionary.size := Nat.le_antisymm (Nat.le_of_lt_succ bound) new
  exact ⟨c, wrote, .refl wrote.idle.follows⟩

/-! ## Traced runs -/

/-- The bodies of the words of a new compiler. -/
def builtInTrace : Trace := fun id =>
  match Primitive.all[id - Intrinsic.all.length]? with
  | some p => .primitive p.inputs p.outputs p.clobbers (p.body.map Instruction.encode)
  | none => .operations []

/-- The bodies after an operation on `c`, which succeeds if a definition is open. -/
def traceAfter (c : Compiler) (t : Trace) (op : Operation) : Trace :=
  match c.definition with
  | some w =>
    if op.inBody then Function.update t w.entry (.operations ((t w.entry).events ++ [c.event w op]))
    else t
  | none =>
    match op with
    | .beginWord .. => Function.update t c.dictionary.size (.operations [])
    | .definePrimitive _ inputs outputs clobbers words =>
      Function.update t c.dictionary.size (.primitive inputs outputs clobbers words)
    | _ => t

/-- A run in which all operations on an open definition succeed, with the bodies of the words. -/
abbrev Traced (raw : InstrWord → RegSet → Prop) : List Snapshot → Trace → Compiler → Prop :=
  RunWith True raw builtInTrace traceAfter

/-- What is known in a traced run: the bodies of all words and of the definition that is open. -/
inductive Tracing (raw : InstrWord → RegSet → Prop) (t : Trace) : Compiler → Prop
  | idle {l : Records} {c : Compiler} : Built True raw l c → Bodies raw t c → Tracing raw t c
  | working {l : Records} {b c0 c : Compiler} {name : String} {signature : Signature} {id : EntryId}
      {events : List Event} : Built True raw l b → Bodies raw t b →
      beginWord name signature b = .ok id c0 → t b.dictionary.size = .operations events →
      Performed raw c0 (.operations events) c → Tracing raw t c

theorem size_entered (c : Compiler) (e : Entry) :
    (c.entered e).dictionary.size = c.dictionary.size + 1 := by
  have present := Dictionary.get?_create c.dictionary e c.dictionary.size
  rw [if_pos rfl] at present
  exact (Dictionary.publish_newest present).1.trans (Dictionary.size_create ..)

theorem forM_ok {α : Type} {I : Nat → Compiler → Prop} {f : α → CompileM PUnit} {xs : List α}
    {n : Nat}
    (each : ∀ k x c c', xs[k]? = some x → I (n + k) c → f x c = .ok () c' → I (n + k + 1) c')
    (start : I n c) (ok : xs.forM f c = .ok () c') : I (n + xs.length) c' := by
  induction xs generalizing n c with
  | nil =>
    cases ok
    exact start
  | cons x xs ih =>
    obtain ⟨_, c1, first, rest⟩ := bind_eq_ok.1 ok
    have next := ih (n := n + 1) (fun k y d d' found holds done => by
        rw [show n + 1 + k = n + (k + 1) by omega] at holds ⊢
        exact each (k + 1) y d d' found holds done)
      (each 0 x c c1 rfl start first) rest
    rwa [List.length_cons, show n + (xs.length + 1) = n + 1 + xs.length by omega]

/-- Every word of a new compiler is a primitive. -/
theorem Tracing.of_create (obeys : BuiltInObeys raw) {host : Host} {s : Settings}
    (created : create host s = .ok c) : Tracing raw builtInTrace c := by
  obtain ⟨heap, host', stackCells, thunk, heap', made, started, defined⟩ := create_cases created
  let Entered (n : Nat) (c : Compiler) : Prop :=
    Built True raw (fun _ => []) c ∧ Bodies raw builtInTrace c ∧ c.dictionary.size = n
  have start : Entered 0 (wordless s heap' stackCells thunk) := by
    refine ⟨.start ⟨host, host', heap, made, started⟩, fun id e code found => ?_, rfl⟩
    cases found
  obtain ⟨_, c1, intrinsics, primitives⟩ := bind_eq_ok.1 defined
  have few : ∀ i ∈ Intrinsic.all, i.inputs ≤ maxValues ∧ i.outputs ≤ maxValues := by decide
  have first : Entered (0 + Intrinsic.all.length) c1 := by
    refine forM_ok (fun k i c c' found ⟨built, bodies, size⟩ ok => ?_) start intrinsics
    obtain ⟨inputs, outputs⟩ := few i (List.mem_of_getElem? found)
    cases ok
    have idle := built.idle
    refine ⟨built.enter rfl rfl rfl nofun inputs outputs, ?_, ?_⟩
    · refine bodies.of_continues idle.follows
        ⟨idle.follows.entered idle.definition rfl rfl rfl, rfl, rfl⟩
        (fun _ _ => rfl) fun id e code new known kind => ?_
      cases (entered_new known new).1.symm.trans kind
    · rw [← size]
      exact size_entered ..
  have last : Entered (0 + Intrinsic.all.length + Primitive.all.length) c := by
    refine forM_ok (fun k p c c' found ⟨built, bodies, size⟩ ok => ?_) first primitives
    obtain ⟨id, done⟩ := ignore_ok ok
    have obeyed := obeys.words (List.mem_of_getElem? found)
    have wrote := built.wrotePrimitive obeyed done
    have next : Built True raw (Function.update (fun _ => []) c.dictionary.size []) c' := by
      have defined :
        Built True raw _ (stateAfter (definePrimitive p.name p.inputs p.outputs p.clobbers
          (p.body.map Instruction.encode)) c) := built.of_definePrimitive obeyed
      rwa [stateAfter_of_ok done] at defined
    have continues : c.Continues c' :=
      ⟨(Runs.of_ok ((follows_session c).definePrimitive _ _ _ _ _) built.idle.follows done).1,
        (Runs.of_ok ((sameFrame_session c).definePrimitive _ _ _ _ _) (.refl c) done).1⟩
    have body : builtInTrace c.dictionary.size =
        .primitive p.inputs p.outputs p.clobbers (p.body.map Instruction.encode) := by
      rw [builtInTrace, size, show 0 + Intrinsic.all.length + k - Intrinsic.all.length = k by omega,
        found]
    rw [Function.update_eq_self] at next
    refine ⟨next, bodies.add built.idle.follows continues (body.symm ▸ wrote) fun _ _ => rfl, ?_⟩
    rw [wrote.size, size]
  exact .idle last.1 last.2.1

/-- Between definitions. -/
theorem Tracing.of_idle (built : Built True raw l c) (bodies : Bodies raw t c) (op : Operation)
    (obeys : op.Obeys raw) : Tracing raw (c.traceAfter t op) (c.after op) := by
  have idle := built.idle
  have older : ∀ body, ∀ id : Nat, id < c.dictionary.size →
      Function.update t c.dictionary.size body id = t id := fun body id low =>
    Function.update_of_ne (Nat.ne_of_lt low) _ _
  cases opens : op.opensWord with
  | true =>
    cases op with
    | beginWord name signature =>
      have trace : c.traceAfter t (.beginWord name signature) =
          Function.update t c.dictionary.size (.operations []) := by
        rw [traceAfter, idle.definition]
      rw [trace, Compiler.after, Operation.run, stateAfter_ignore]
      cases outcome : beginWord name signature c with
      | ok id c' =>
        rw [stateAfter_of_ok outcome]
        exact .working built (bodies.congr idle.follows (older _)) outcome
          (Function.update_self ..) .start
      | error e c' =>
        rw [stateAfter_of_error outcome]
        have continues : c.Continues c' :=
          ⟨Runs.of_error (beginWord_keeps name signature) idle.follows outcome,
            Runs.of_error ((sameFrame_session c).beginWord name signature) (.refl c) outcome⟩
        refine .idle (built.of_beginWord_error outcome)
          (bodies.of_same idle.follows continues ?_ (older _))
        rcases beginWord_error outcome with rfl | ⟨e, heap, -, rfl⟩ <;> rfl
    | definePrimitive name inputs outputs clobbers words =>
      have trace : c.traceAfter t (.definePrimitive name inputs outputs clobbers words) =
          Function.update t c.dictionary.size (.primitive inputs outputs clobbers words) := by
        rw [traceAfter, idle.definition]
      have continues :=
        (Continues.refl idle.follows).after (.definePrimitive name inputs outputs clobbers words)
      rw [Compiler.after, Operation.run, stateAfter_ignore] at continues ⊢
      rw [trace]
      refine .idle (built.of_definePrimitive obeys) ?_
      cases outcome : definePrimitive name inputs outputs clobbers words c with
      | ok id c' =>
        rw [stateAfter_of_ok outcome] at continues ⊢
        refine bodies.add idle.follows continues ?_ (older _)
        rw [Function.update_self]
        exact built.wrotePrimitive obeys outcome
      | error e c' =>
        rw [stateAfter_of_error outcome] at continues ⊢
        exact bodies.of_same idle.follows continues (definePrimitive_failed built outcome) (older _)
    | _ => cases opens
  | false =>
    obtain ⟨next, others⟩ := built.closed obeys opens
    have trace : c.traceAfter t op = t := by
      unfold traceAfter
      rw [idle.definition]
      cases op <;> first | rfl | cases opens
    rw [trace]
    exact .idle next (bodies.of_continues idle.follows ((Continues.refl idle.follows).after op)
      (fun _ _ => rfl) fun id e code new found kind => absurd kind (others id e code new found))

/-- While a definition is open. -/
theorem Tracing.of_working (built : Built True raw l b) (bodies : Bodies raw t b)
    {signature : Signature} (begun : beginWord name signature b = .ok id c0) {events : List Event}
    (current : t b.dictionary.size = .operations events)
    (performed : Performed raw c0 (.operations events) c) (op : Operation) (obeys : op.Obeys raw)
    (succeeds : c.definition ≠ none → op.inBody = true → ∃ c', op.run c = .ok () c') :
    Tracing raw (c.traceAfter t op) (c.after op) := by
  have start := built.idle.follows
  have worked := performed.worked
  have opened := worked.opened start begun
  obtain ⟨w, isOpen, -⟩ := opened.isOpen
  have entry := opened.entry_eq isOpen
  have frame := worked.sameFrame (sameFrame_of_begun begun)
  have continues := Continues.after ⟨opened.follows, frame⟩ op
  cases inBody : op.inBody with
  | true =>
    obtain ⟨c', ok⟩ := succeeds opened.not_idle inBody
    have trace : c.traceAfter t op =
        Function.update t b.dictionary.size (.operations (events ++ [c.event w op])) := by
      unfold traceAfter
      rw [isOpen]
      simp only [inBody, if_true, entry, current, Body.events]
    rw [trace]
    refine .working built (bodies.congr start fun id low => ?_) begun (Function.update_self ..) ?_
    · exact Function.update_of_ne (Nat.ne_of_lt low) _ _
    · rw [Compiler.after, stateAfter_of_ok ok]
      exact performed.step isOpen inBody obeys ok
  | false =>
    have trace : c.traceAfter t op = t := by
      unfold traceAfter
      rw [isOpen]
      simp only [inBody, Bool.false_eq_true, if_false]
    rw [trace]
    by_cases ended : op = .endWord
    · subst ended
      rw [Compiler.after, Operation.run, stateAfter_ignore] at continues ⊢
      refine .idle (built.of_endWord begun worked isOpen) ?_
      cases outcome : endWord c with
      | ok id' c' =>
        rw [stateAfter_of_ok outcome] at continues ⊢
        refine bodies.add start continues ?_ fun _ _ => rfl
        rw [current]
        exact .mk built rfl begun performed isOpen (endWord_finished isOpen outcome)
      | error e c' =>
        rw [stateAfter_of_error outcome] at continues ⊢
        exact bodies.of_same start continues (opened.failed start.dictionary outcome).dictionary
          fun _ _ => rfl
    by_cases abandoned : op = .abandonWord
    · subst abandoned
      exact .idle (built.of_abandonWord opened frame)
        (bodies.of_same start continues (opened.abandoned start.dictionary).dictionary fun _ _ =>
          rfl)
    · obtain ⟨e, refused⟩ := refused_of_open opened.not_idle inBody ended abandoned
      rw [Compiler.after, stateAfter_of_error refused]
      exact .working built bodies begun current performed

theorem traceAfter_below (follows : b.Follows c) (t : Trace) (op : Operation) {id : Nat}
    (older : id < b.dictionary.size) : c.traceAfter t op id = t id := by
  have beyond : id < c.dictionary.size := Nat.lt_of_lt_of_le older follows.entries.size
  unfold traceAfter
  cases isOpen : c.definition with
  | some w =>
    have entry : b.dictionary.size ≤ w.entry := (follows.definition w isOpen).entry
    dsimp only
    split
    · exact Function.update_of_ne (Nat.ne_of_lt (Nat.lt_of_lt_of_le older entry)) _ _
    · rfl
  | none =>
    cases op with
    | beginWord name signature => exact Function.update_of_ne (Nat.ne_of_lt beyond) _ _
    | definePrimitive name inputs outputs clobbers words =>
      exact Function.update_of_ne (Nat.ne_of_lt beyond) _ _
    | _ => rfl

theorem Traced.tracing (obeys : BuiltInObeys raw) (traced : Traced raw current t c) :
    Tracing raw t c := by
  let Known (t : Trace) (b : Compiler) : Prop := (∃ l, Built True raw l b) ∧ Bodies raw t b
  have carries : Carries True raw builtInTrace traceAfter (Tracing raw) Known := by
    refine ⟨.of_create obeys, fun tracing op obeyed succeeds => ?_, fun tracing idle => ?_,
      ?_, ?_, ?_⟩
    · cases tracing with
      | idle built bodies => exact .of_idle built bodies op obeyed
      | working built bodies begun current performed =>
        exact .of_working built bodies begun current performed op obeyed (succeeds trivial)
    · cases tracing with
      | idle built bodies => exact ⟨⟨_, built⟩, bodies⟩
      | working built _ begun _ performed =>
        exact absurd idle (performed.worked.opened built.idle.follows begun).not_idle
    · rintro t b ⟨⟨l, built⟩, -⟩
      exact built.idle.follows
    · rintro t b c ⟨⟨l, built⟩, bodies⟩ follows op
      exact ⟨⟨l, built⟩, bodies.congr built.idle.follows fun _ older =>
        traceAfter_below follows t op older⟩
    · rintro t b c ⟨⟨l, built⟩, bodies⟩ continues restored
      exact .idle (built.restored continues.follows restored continues.frame fun _ _ => rfl)
        (bodies.of_same built.idle.follows continues restored.dictionary fun _ _ => rfl)
  exact (traced.carried carries).1

/-- Every finished word was once a definition with the body that is remembered of it. -/
theorem Traced.wrote (obeys : BuiltInObeys raw) (traced : Traced raw current t c) {e : Entry}
    {code : CompiledWord} (word : c.HasWord id e code) :
    ∃ c', Wrote raw id (t id) c' ∧ c'.Continues c := by
  cases traced.tracing obeys with
  | idle _ bodies => exact bodies id e code word.found word.kind
  | @working l b c0 c _ _ _ _ built bodies begun _ performed =>
    have start := built.idle.follows
    have opened := performed.worked.opened start begun
    obtain ⟨w, isOpen, -⟩ := opened.isOpen
    have older := opened.older isOpen (word.finished w isOpen) word.found
    obtain ⟨e0, found, same⟩ := start.older opened.follows older word.found
    have kind := word.kind
    rw [same] at kind
    obtain ⟨c', wrote, since⟩ := bodies id e0 code found kind
    have frame := performed.worked.sameFrame (sameFrame_of_begun begun)
    exact ⟨c', wrote, since.trans ⟨opened.follows, frame⟩⟩

end Compiler

end ForthJit
