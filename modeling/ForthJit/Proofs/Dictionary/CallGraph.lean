import ForthJit.Dictionary.CallGraph
import ForthJit.Proofs.Dictionary.ShortestPath
import ForthJit.Proofs.Dictionary.Truncate

/-!
# The graph of calls

Calls go to older words or, by recursion, to the word itself.  So whoever follows the interpreter
flag from a word to its callees comes to a word that has it of its own.  `Dictionary.Linked` is what
the dictionary has to keep for that.
-/

namespace ForthJit

variable {i j : EntryId} {e : Entry}

theorem pairwise_insertAscending {ids : List EntryId} (ascending : ids.Pairwise (· < ·))
    (id : EntryId) : (insertAscending id ids).Pairwise (· < ·) := by
  induction ids with
  | nil => exact List.pairwise_singleton _ _
  | cons i rest ih =>
    obtain ⟨first, later⟩ := List.pairwise_cons.1 ascending
    unfold insertAscending
    split
    next below =>
      refine List.pairwise_cons.2 ⟨fun j member => ?_, ascending⟩
      rcases List.mem_cons.1 member with rfl | member
      · exact below
      · exact Nat.lt_trans below (first j member)
    next notBelow =>
      split
      · exact ascending
      next other =>
        refine List.pairwise_cons.2 ⟨fun j member => ?_, ih later⟩
        rcases mem_insertAscending.1 member with rfl | member
        · exact Nat.lt_of_le_of_ne (Nat.le_of_not_lt notBelow) (Ne.symm other)
        · exact first j member

namespace Dictionary

variable {d d' : Dictionary} {ids : List EntryId}

/-- Every call is recorded on both sides, once, and `ids` are the entries that call themselves. -/
structure Linked (ids : List EntryId) (d : Dictionary) : Prop where
  ascending : ∀ {i e}, d.get? i = some e → e.callees.Pairwise (· < ·)
  callers : ∀ {i j e}, d.get? i = some e → j ∈ e.callees → ∃ f, d.get? j = some f ∧ i ∈ f.callers
  self : ∀ {i e}, d.get? i = some e → (i ∈ e.callees ↔ i ∈ ids)

/-! ## What leaves the calls alone -/

/-- The same entries make the same calls. -/
def SameCalls (d d' : Dictionary) : Prop :=
  ∀ i, (d'.get? i).map (fun e => (e.callers, e.callees)) =
    (d.get? i).map fun e => (e.callers, e.callees)

namespace SameCalls

theorem refl (d : Dictionary) : SameCalls d d := fun _ => rfl

theorem symm (same : SameCalls d d') : SameCalls d' d := fun i => (same i).symm

theorem trans {d'' : Dictionary} (first : SameCalls d d') (second : SameCalls d' d'') :
    SameCalls d d'' :=
  fun i => (second i).trans (first i)

theorem view (same : SameCalls d d') {e' : Entry} (found' : d'.get? i = some e') :
    ∃ e, d.get? i = some e ∧ e'.callers = e.callers ∧ e'.callees = e.callees := by
  have calls := same i
  rw [found', Option.map_some, eq_comm, Option.map_eq_some_iff] at calls
  obtain ⟨e, found, equal⟩ := calls
  exact ⟨e, found, (congrArg Prod.fst equal :).symm, (congrArg Prod.snd equal :).symm⟩

variable (d : Dictionary) (id : EntryId)

theorem update {f : Entry → Entry}
    (kept : ∀ e, (f e).callers = e.callers ∧ (f e).callees = e.callees) :
    SameCalls d (d.update id f) := by
  intro i
  rw [get?_update]
  split
  · rw [Option.map_map]
    congr 1
    funext e
    exact Prod.ext (kept e).1 (kept e).2
  · rfl

theorem publish : SameCalls d (d.publish id) := by
  unfold Dictionary.publish
  split
  · exact .refl d
  · exact update d id fun _ => ⟨rfl, rfl⟩

theorem propagate : SameCalls d (d.propagate id) := by
  have along : ∀ s, Relation.ReflTransGen Round (d, [id]) s → SameCalls d s.1 := by
    intro s rounds
    induction rounds with
    | refl => exact .refl d
    | tail _ round ih =>
      cases round with
      | skip _ _ => exact ih
      | take _ _ =>
        refine ih.trans fun i => ?_
        rw [get?_passOn, Option.map_map]
        congr 1
        funext e
        simp only [Function.comp]
        split <;> rfl
  exact along _ (rounds_propagate d id)

theorem mark (has : EntryFlags → Bool)
    (set : EntryFlags → EntryFlags) : SameCalls d (d.mark id has set) := by
  unfold Dictionary.mark
  split
  · exact .refl d
  · split
    · exact .refl d
    · have marked : SameCalls d (d.update id fun e => { e with flags := set e.flags }) :=
        update d id fun _ => ⟨rfl, rfl⟩
      exact marked.trans (propagate _ id)

theorem markThrows : SameCalls d (d.markThrows id) :=
  mark d id (·.throws) fun f => { f with throws := true }

theorem markInterpreterOnly :
    SameCalls d (d.markInterpreterOnly id) :=
  mark d id (·.interpreterOnly) fun f => { f with interpreterOnly := true }

end SameCalls

/-! ## What keeps the calls linked -/

namespace Linked

theorem empty : Linked [] {} where
  ascending := fun found => by simp [get?] at found
  callers := fun found => by simp [get?] at found
  self := fun found => by simp [get?] at found

theorem sameCalls (linked : d.Linked ids) (same : SameCalls d d') : d'.Linked ids := by
  refine ⟨fun found' => ?_, fun found' called => ?_, fun found' => ?_⟩
  · obtain ⟨e, found, -, callees⟩ := same.view found'
    rw [callees]
    exact linked.ascending found
  · obtain ⟨e, found, -, callees⟩ := same.view found'
    rw [callees] at called
    obtain ⟨f, present, isCaller⟩ := linked.callers found called
    obtain ⟨f', present', callers, -⟩ := same.symm.view present
    exact ⟨f', present', callers ▸ isCaller⟩
  · obtain ⟨e, found, -, callees⟩ := same.view found'
    rw [callees]
    exact linked.self found

/-- Only entries that are there matter. -/
theorem cut (linked : d.Linked ids) : d.Linked (ids.filter (· < d.size)) := by
  refine { linked with self := fun found => (linked.self found).trans ?_ }
  rw [List.mem_filter, and_iff_left (decide_eq_true (get?_lt found))]

theorem create (linked : d.Linked ids) (new : d.size ∉ ids) (alone : e.callees = []) :
    (d.create e).Linked ids := by
  have view : ∀ {i : EntryId} {f}, (d.create e).get? i = some f →
      i = d.size ∧ f.callees = [] ∨ d.get? i = some f := by
    intro i f found
    rw [get?_create] at found
    split at found
    next newest =>
      cases found
      exact Or.inl ⟨newest, alone⟩
    next => exact Or.inr found
  refine ⟨fun found' => ?_, fun found' called => ?_, fun found' => ?_⟩
  · rcases view found' with ⟨-, none⟩ | found
    · rw [none]
      exact .nil
    · exact linked.ascending found
  · rcases view found' with ⟨-, none⟩ | found
    · rw [none] at called
      cases called
    · obtain ⟨f, present, isCaller⟩ := linked.callers found called
      refine ⟨f, ?_, isCaller⟩
      rw [get?_create, if_neg (Nat.ne_of_lt (get?_lt present))]
      exact present
  · rcases view found' with ⟨rfl, none⟩ | found
    · rw [none]
      exact ⟨fun member => absurd member List.not_mem_nil, fun member => absurd member new⟩
    · exact linked.self found

/-- A call is recorded.  If it goes from an entry to itself, that is one of those that do. -/
theorem addCall (linked : d.Linked ids) {caller callee : EntryId} (present : callee < d.size)
    {ids' : List EntryId} (listed : ∀ i, i ∈ ids' ↔ i ∈ ids ∨ i = caller ∧ i = callee) :
    (d.addCall caller callee).Linked ids' := by
  rw [addCall_eq]
  refine sameCalls ?_ (.propagate _ callee)
  have view : ∀ {i : EntryId} {e'}, (d.link caller callee).get? i = some e' → ∃ e,
      d.get? i = some e ∧
      e'.callees = (if caller = i then insertAscending callee e.callees else e.callees) := by
    intro i e' found'
    rw [get?_link] at found'
    obtain ⟨e, found, rfl⟩ := Option.map_eq_some_iff.1 found'
    exact ⟨e, found, rfl⟩
  have called : ∀ {i j : EntryId} {e'}, (d.link caller callee).get? i = some e' → (j ∈ e'.callees ↔
      ∃ e, d.get? i = some e ∧ (j ∈ e.callees ∨ i = caller ∧ j = callee)) := by
    intro i j e' found'
    obtain ⟨e, found, callees⟩ := view found'
    rw [callees, found]
    split
    next isCaller => simp [mem_insertAscending, isCaller, or_comm]
    next other => simp [Ne.symm other]
  -- The callee lists the new caller beside those that it had.
  have lists : ∀ {i j : EntryId} {f}, d.get? j = some f → i ∈ f.callers ∨ i = caller ∧ j = callee →
      ∃ f', (d.link caller callee).get? j = some f' ∧ i ∈ f'.callers := by
    intro i j f found isCaller
    rw [get?_link, found]
    refine ⟨_, rfl, ?_⟩
    dsimp only
    split
    next isCallee =>
      rw [mem_insertAscending]
      rcases isCaller with old | ⟨new, -⟩
      · exact Or.inr old
      · exact Or.inl new
    next other => exact isCaller.resolve_right fun new => other new.2.symm
  refine ⟨fun found' => ?_, fun found' isCallee => ?_, fun found' => ?_⟩
  · obtain ⟨e, found, callees⟩ := view found'
    rw [callees]
    split
    · exact pairwise_insertAscending (linked.ascending found) callee
    · exact linked.ascending found
  · obtain ⟨e, found, old | ⟨rfl, rfl⟩⟩ := (called found').1 isCallee
    · obtain ⟨f, there, isCaller⟩ := linked.callers found old
      exact lists there (Or.inl isCaller)
    · obtain ⟨f, there⟩ := get?_of_lt present
      exact lists there (Or.inr ⟨rfl, rfl⟩)
  · obtain ⟨e, found, -⟩ := view found'
    rw [called found', listed, found]
    simp [linked.self found]

theorem truncate (linked : d.Linked ids) (wellFormed : d.WellFormed) (n : Nat) :
    (d.truncate n).Linked ids := by
  have view : ∀ {i : EntryId} {e'}, (d.truncate n).get? i = some e' →
      i < n ∧ ∃ e, d.get? i = some e ∧ e'.callees = e.callees.filter (· < n) := by
    intro i e' found'
    rw [get?_truncate wellFormed] at found'
    split at found'
    next low =>
      obtain ⟨e, found, rfl⟩ := Option.map_eq_some_iff.1 found'
      exact ⟨low, e, found, rfl⟩
    next => cases found'
  refine ⟨fun found' => ?_, fun found' called => ?_, fun found' => ?_⟩
  · obtain ⟨-, e, found, callees⟩ := view found'
    rw [callees]
    exact (linked.ascending found).filter _
  · obtain ⟨low, e, found, callees⟩ := view found'
    rw [callees, List.mem_filter, decide_eq_true_eq] at called
    obtain ⟨f, present, isCaller⟩ := linked.callers found called.1
    refine ⟨f.upTo n, ?_, List.mem_filter.2 ⟨isCaller, decide_eq_true low⟩⟩
    rw [get?_truncate wellFormed, if_pos called.2, present]
    rfl
  · obtain ⟨low, e, found, callees⟩ := view found'
    rw [callees, List.mem_filter, decide_eq_true_eq, and_iff_left low]
    exact linked.self found

end Linked

/-! ## Words that need the interpreter -/

/-- A word needs the interpreter if one that it calls does. -/
theorem NeedsInterpreter.of_callee (linked : d.Linked ids) (settled : d.Settled)
    (found : d.get? i = some e) (called : j ∈ e.callees) (needs : d.NeedsInterpreter j) :
    d.NeedsInterpreter i := by
  obtain ⟨f, present, isCaller⟩ := linked.callers found called
  obtain ⟨f', present', flag⟩ := needs
  obtain rfl := Option.some.inj (present.symm.trans present')
  exact ⟨e, found, (inherit_eq_iff.1 (settled j f present i isCaller e found)).2.2 flag⟩

/-- There is a chain of calls to a word that needs the interpreter by itself from exactly the words
that have the flag. -/
theorem isSome_interpreterPath? (linked : d.Linked ids) (wellFormed : d.WellFormed) {root : EntryId}
    (found : d.get? root = some e) :
    (d.interpreterPath? root).isSome = e.flags.interpreterOnly := by
  have bound : ∀ i j, d.Calls i j → j < d.size := by
    rintro i j ⟨f, present, called⟩
    obtain ⟨g, present', -⟩ := linked.callers present called
    exact get?_lt present'
  have none_iff := interpreterPath?_eq_none_iff
    (fun i f present => (linked.ascending present).imp Nat.ne_of_lt) bound (get?_lt found)
  have older : ∀ {i j}, Relation.ReflTransGen d.Calls i j → j ≤ i := by
    intro i j reached
    induction reached with
    | refl => exact Nat.le_refl _
    | tail _ call ih =>
      obtain ⟨f, present, called⟩ := call
      exact (wellFormed.callees _ f present _ called).trans ih
  have needed : ∀ {i j}, Relation.ReflTransGen d.Calls i j → d.NeedsInterpreter j →
      d.NeedsInterpreter i := by
    intro i j reached needs
    induction reached with
    | refl => exact needs
    | tail _ call ih =>
      obtain ⟨f, present, called⟩ := call
      exact ih (needs.of_callee linked wellFormed.settled present called)
  cases flag : e.flags.interpreterOnly with
  | false =>
    rw [Option.isSome_eq_false_iff, Option.isNone_iff_eq_none, none_iff]
    intro j reached own
    obtain ⟨e', found', flag'⟩ := needed reached own.1
    obtain rfl := Option.some.inj (found.symm.trans found')
    cases flag.symm.trans flag'
  | true =>
    rw [Option.isSome_iff_ne_none, Ne, none_iff]
    obtain ⟨j, reached, own⟩ := exists_needsByItself ⟨e, found, flag⟩ fun j k _ _ there back =>
      Nat.le_antisymm (older back) (older there)
    exact fun plain => plain j reached own

/-! ## Calls between compiled words -/

theorem mem_compiledCallees : j ∈ d.compiledCallees i ↔
    ∃ e, d.get? i = some e ∧ d.isCompiled i = true ∧ j ∈ e.callees ∧ d.isCompiled j = true := by
  unfold compiledCallees
  cases found : d.get? i with
  | none => simp
  | some e =>
    dsimp only
    split
    next compiled => simp [compiled, List.mem_filter]
    next other => simp [other]

theorem WellFormed.compiledCallees_le (wellFormed : d.WellFormed)
    (called : j ∈ d.compiledCallees i) : j ≤ i := by
  obtain ⟨e, found, -, isCallee, -⟩ := mem_compiledCallees.1 called
  exact wellFormed.callees i e found j isCallee

end Dictionary

end ForthJit
