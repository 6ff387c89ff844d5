import ForthJit.Dictionary.CallGraph
import ForthJit.Proofs.Dictionary.Closure

/-!
# The nearest word that needs the interpreter

The search for a word that needs the interpreter by itself goes breadth first.  What it has seen and
no longer queues is no such word and calls only words that it has seen, and each word in the queue
has a shortest path of calls from the root.  So every path of calls that goes on to such a word
passes through the queue, and is no shorter than the path of the word at its head.
-/

namespace ForthJit.Dictionary

open Relation

variable {d : Dictionary} {root id i j : EntryId} {e : Entry}

/-- Entry `i` has the interpreter flag. -/
def NeedsInterpreter (d : Dictionary) (i : EntryId) : Prop :=
  ∃ e, d.get? i = some e ∧ e.flags.interpreterOnly = true

/-- Entry `i` has the interpreter flag, and no other entry that it calls has it. -/
def NeedsByItself (d : Dictionary) (i : EntryId) : Prop :=
  d.NeedsInterpreter i ∧ ∀ j, d.Calls i j → j ≠ i → ¬d.NeedsInterpreter j

theorem calls_iff (found : d.get? i = some e) : d.Calls i j ↔ j ∈ e.callees := by
  simp [Calls, found]

theorem originatesInterpreter_iff (found : d.get? i = some e) :
    d.originatesInterpreter i e = true ↔ d.NeedsByItself i := by
  have flagged : ∀ j, ((d.get? j).map (·.flags.interpreterOnly)).getD false = true ↔
      d.NeedsInterpreter j := by
    intro j
    cases present : d.get? j <;> simp [NeedsInterpreter, present]
  have own : e.flags.interpreterOnly = true ↔ d.NeedsInterpreter i := by
    simp [NeedsInterpreter, found]
  simp [originatesInterpreter, NeedsByItself, calls_iff found, own, ← flagged]

/-! ## Paths -/

/-- `path` goes from `root` to `j`, and each entry on it calls the next. -/
structure CallPath (d : Dictionary) (root j : EntryId) (path : List EntryId) : Prop where
  first : path.head? = some root
  chain : path.IsChain d.Calls
  last : path.getLast? = some j

theorem callPath_singleton : d.CallPath root j [j].reverse ↔ j = root :=
  ⟨fun path => Option.some.inj path.first, fun same => ⟨congrArg some same, .singleton j, rfl⟩⟩

/-- A path goes on with a call. -/
theorem callPath_call {path : List EntryId} :
    d.CallPath root j (j :: i :: path).reverse ↔
      d.CallPath root i (i :: path).reverse ∧ d.Calls i j := by
  constructor
  · intro path
    have chain := List.isChain_cons_cons.1 (List.isChain_reverse.1 path.chain)
    refine ⟨⟨?_, List.isChain_reverse.2 chain.2, by simp⟩, chain.1⟩
    simpa using path.first
  · rintro ⟨path, call⟩
    refine ⟨?_,
      List.isChain_reverse.2 (.cons_cons call (List.isChain_reverse.1 path.chain)), by simp⟩
    simpa using path.first

/-- A path in the order from its end. -/
theorem CallPath.reversed {path : List EntryId} (whole : d.CallPath root j path) :
    ∃ rest, path = (j :: rest).reverse := by
  obtain ⟨rest, same⟩ := List.head?_eq_some_iff.1 (List.head?_reverse.trans whole.last)
  exact ⟨rest, List.reverse_eq_iff.1 same⟩

/-- Every entry on a path to an entry is there. -/
theorem CallPath.present {path : List EntryId} (whole : d.CallPath root j path)
    (found : d.get? j = some e) : ∀ i ∈ path, (d.get? i).isSome = true := by
  obtain ⟨rest, rfl⟩ := whole.reversed
  simp only [List.mem_reverse]
  induction rest generalizing j e with
  | nil => simp [found]
  | cons i rest ih =>
    obtain ⟨before, f, present, -⟩ := callPath_call.1 whole
    exact List.forall_mem_cons.2 ⟨by simp [found], ih present before⟩

theorem exists_callPath_iff :
    (∃ path, d.CallPath root j (j :: path).reverse) ↔ ReflTransGen d.Calls root j := by
  constructor
  · rintro ⟨path, whole⟩
    induction path generalizing j with
    | nil => rw [callPath_singleton.1 whole]
    | cons i path ih =>
      obtain ⟨before, call⟩ := callPath_call.1 whole
      exact (ih before).tail call
  · intro reached
    induction reached with
    | refl => exact ⟨[], callPath_singleton.2 rfl⟩
    | tail _ call ih =>
      obtain ⟨path, before⟩ := ih
      exact ⟨_, callPath_call.2 ⟨before, call⟩⟩

/-! ## The search -/

/-- A search from `root` on its way. -/
structure Searching (d : Dictionary) (root : EntryId) (queue : List (EntryId × List EntryId))
    (seen : List EntryId) : Prop where
  start : root ∈ seen
  paths : ∀ p ∈ queue, d.CallPath root p.1 (p.1 :: p.2).reverse
  nearest : ∀ p ∈ queue, ∀ path, d.CallPath root p.1 (p.1 :: path).reverse →
    p.2.length ≤ path.length
  order : queue.Pairwise fun p q => p.2.length ≤ q.2.length ∧ q.2.length ≤ p.2.length + 1
  passed : ∀ i ∈ seen, i ∈ queue.map (·.1) ∨ ¬d.NeedsByItself i ∧ ∀ j, d.Calls i j → j ∈ seen

namespace Searching

variable {queue : List (EntryId × List EntryId)} {seen callers path fresh : List EntryId}
  {fuel : Nat}

/-- A path passes through the queue, or the search has dealt with where it ends. -/
theorem frontier (searching : Searching d root queue seen)
    (whole : d.CallPath root j (j :: path).reverse) :
    (∃ p ∈ queue, p.2.length ≤ path.length) ∨ ¬d.NeedsByItself j ∧ ∀ k, d.Calls j k → k ∈ seen := by
  have atEnd : ∀ {j path}, d.CallPath root j (j :: path).reverse → j ∈ seen →
      (∃ p ∈ queue, p.2.length ≤ path.length) ∨
        ¬d.NeedsByItself j ∧ ∀ k, d.Calls j k → k ∈ seen := by
    intro j path whole isSeen
    refine (searching.passed j isSeen).imp_left fun queued => ?_
    obtain ⟨p, member, rfl⟩ := List.mem_map.1 queued
    exact ⟨p, member, searching.nearest p member path whole⟩
  induction path generalizing j with
  | nil => exact atEnd whole (callPath_singleton.1 whole ▸ searching.start)
  | cons i path ih =>
    obtain ⟨before, call⟩ := callPath_call.1 whole
    rcases ih before with ⟨p, member, near⟩ | ⟨-, calls⟩
    · exact Or.inl ⟨p, member, Nat.le_succ_of_le near⟩
    · exact atEnd whole (calls j call)

/-- Nothing in the queue is nearer than its head. -/
theorem head_le (searching : Searching d root ((id, callers) :: queue) seen)
    {p : EntryId × List EntryId} (member : p ∈ (id, callers) :: queue) :
    callers.length ≤ p.2.length := by
  rcases List.mem_cons.1 member with rfl | later
  · exact Nat.le_refl _
  · exact ((List.pairwise_cons.1 searching.order).1 p later).1

/-- The search goes on past a word that does not need the interpreter by itself. -/
theorem next (searching : Searching d root ((id, callers) :: queue) seen)
    (other : ¬d.NeedsByItself id) (isFresh : ∀ j, j ∈ fresh ↔ d.Calls id j ∧ j ∉ seen) :
    Searching d root (queue ++ fresh.map (·, id :: callers)) (seen ++ fresh) := by
  have split : ∀ {p}, p ∈ queue ++ fresh.map (·, id :: callers) →
      p ∈ queue ∨ ∃ j ∈ fresh, p = (j, id :: callers) := by
    intro p member
    rcases List.mem_append.1 member with old | new
    · exact Or.inl old
    · obtain ⟨j, isNew, rfl⟩ := List.mem_map.1 new
      exact Or.inr ⟨j, isNew, rfl⟩
  have taken : d.CallPath root id (id :: callers).reverse := searching.paths _ List.mem_cons_self
  obtain ⟨first, order⟩ := List.pairwise_cons.1 searching.order
  refine ⟨List.mem_append_left _ searching.start, fun p member => ?_, fun p member path whole => ?_,
    ?_, fun i member => ?_⟩
  · rcases split member with old | ⟨j, new, rfl⟩
    · exact searching.paths p (List.mem_cons_of_mem _ old)
    · exact callPath_call.2 ⟨taken, ((isFresh j).1 new).1⟩
  · rcases split member with old | ⟨j, new, rfl⟩
    · exact searching.nearest p (List.mem_cons_of_mem _ old) path whole
    · -- The word before `j` on the path is not dealt with, or `j` would have been seen.
      have unseen := ((isFresh j).1 new).2
      cases path with
      | nil =>
        obtain rfl : j = root := callPath_singleton.1 whole
        exact absurd searching.start unseen
      | cons i path =>
        obtain ⟨before, call⟩ := callPath_call.1 whole
        rcases searching.frontier before with ⟨p, queued, near⟩ | ⟨-, calls⟩
        · exact Nat.succ_le_succ ((searching.head_le queued).trans near)
        · exact absurd (calls j call) unseen
  · refine List.pairwise_append.2 ⟨order, ?_, fun p old q new => ?_⟩
    · refine List.pairwise_map.2 (List.pairwise_of_forall fun _ _ => ?_)
      exact ⟨Nat.le_refl _, Nat.le_succ _⟩
    · obtain ⟨j, -, rfl⟩ := List.mem_map.1 new
      obtain ⟨near, far⟩ := first p old
      exact ⟨far, Nat.succ_le_succ near⟩
  · rw [List.map_append, List.map_map]
    rcases List.mem_append.1 member with old | new
    · rcases searching.passed i old with queued | ⟨plain, calls⟩
      · rcases List.mem_cons.1 queued with rfl | waiting
        · refine Or.inr ⟨other, fun j call => ?_⟩
          by_cases isSeen : j ∈ seen
          · exact List.mem_append_left _ isSeen
          · exact List.mem_append_right _ ((isFresh j).2 ⟨call, isSeen⟩)
        · exact Or.inl (List.mem_append_left _ waiting)
      · exact Or.inr ⟨plain, fun j call => List.mem_append_left _ (calls j call)⟩
    · exact Or.inl (List.mem_append_right _ (List.mem_map.2 ⟨i, new, rfl⟩))

theorem mem_fresh (seen : List EntryId) (found : d.get? id = some e) :
    ∀ j, j ∈ (e.callees.filter fun c => !seen.contains c) ↔ d.Calls id j ∧ j ∉ seen := by
  simp [calls_iff found]

/-- Past an entry that is not there. -/
theorem skip (searching : Searching d root ((id, callers) :: queue) seen)
    (absent : d.get? id = none) : Searching d root queue seen := by
  have other : ¬d.NeedsByItself id := by
    rintro ⟨⟨e, found, -⟩, -⟩
    cases absent.symm.trans found
  have none : ∀ j, j ∈ [] ↔ d.Calls id j ∧ j ∉ seen := by simp [Calls, absent]
  simpa using searching.next other none

/-- What is found is at the end of a shortest path. -/
theorem found (searching : Searching d root queue seen)
    (result : d.searchInterpreter fuel queue seen = some path) :
    ∃ j, d.CallPath root j path ∧ d.NeedsByItself j ∧
      ∀ j' path', d.CallPath root j' path' → d.NeedsByItself j' → path.length ≤ path'.length := by
  fun_induction searchInterpreter d fuel queue seen with
  | case1 | case2 => cases result
  | case3 fuel id callers queue seen absent ih => exact ih (searching.skip absent) result
  | case4 fuel id callers queue seen e present own =>
    obtain rfl := Option.some.inj result
    have own := (originatesInterpreter_iff present).1 own
    refine ⟨id, searching.paths _ List.mem_cons_self, own, fun j' path' whole own' => ?_⟩
    obtain ⟨rest, rfl⟩ := whole.reversed
    rcases searching.frontier whole with ⟨p, queued, near⟩ | ⟨plain, -⟩
    · simpa using (searching.head_le queued).trans near
    · exact absurd own' plain
  | case5 fuel id callers queue seen e present inherits fresh ih =>
    exact ih (searching.next (mt (originatesInterpreter_iff present).2 inherits)
      (mem_fresh seen present))
      result

/-- With fuel for all entries that have not been taken, nothing is missed. -/
theorem missed (searching : Searching d root queue seen)
    (once : ∀ i e, d.get? i = some e → e.callees.Nodup) (bound : ∀ i j, d.Calls i j → j < d.size)
    (nodup : seen.Nodup) (inside : ∀ i ∈ seen, i < d.size)
    (enough : d.size + queue.length < fuel + seen.length)
    (result : d.searchInterpreter fuel queue seen = none) (reached : ReflTransGen d.Calls root j) :
    ¬d.NeedsByItself j := by
  fun_induction searchInterpreter d fuel queue seen with
  | case1 queue seen =>
    have bounded : seen.length ≤ (List.range d.size).length :=
      (nodup.subperm fun i member => List.mem_range.2 (inside i member)).length_le
    rw [List.length_range] at bounded
    omega
  | case2 seen =>
    obtain ⟨path, whole⟩ := exists_callPath_iff.2 reached
    rcases searching.frontier whole with ⟨p, queued, -⟩ | ⟨plain, -⟩
    · cases queued
    · exact plain
  | case3 fuel id callers queue seen absent ih =>
    refine ih (searching.skip absent) nodup inside ?_ result
    rw [List.length_cons] at enough
    omega
  | case4 => cases result
  | case5 fuel id callers queue seen e present inherits fresh ih =>
    have isFresh := mem_fresh seen present
    refine ih (searching.next (mt (originatesInterpreter_iff present).2 inherits) isFresh) ?_ ?_ ?_
      result
    · exact List.nodup_append'.2
        ⟨nodup, (once id e present).filter _, fun i old new => ((isFresh i).1 new).2 old⟩
    · intro i member
      rcases List.mem_append.1 member with old | new
      · exact inside i old
      · exact bound id i ((isFresh i).1 new).1
    · simp only [List.length_append, List.length_map, List.length_cons] at enough ⊢
      omega

end Searching

theorem searching_start (d : Dictionary) (root : EntryId) :
    Searching d root [(root, [])] [root] where
  start := List.mem_singleton_self root
  paths := fun p member => by
    rw [List.mem_singleton.1 member]
    exact callPath_singleton.2 rfl
  nearest := fun p member path _ => by
    rw [List.mem_singleton.1 member]
    exact Nat.zero_le _
  order := List.pairwise_singleton _ _
  passed := fun i member => Or.inl member

/-- The search finds nothing if and only if calls lead to no word that needs the interpreter by
itself. -/
theorem interpreterPath?_eq_none_iff (once : ∀ i e, d.get? i = some e → e.callees.Nodup)
    (bound : ∀ i j, d.Calls i j → j < d.size) (inside : root < d.size) :
    d.interpreterPath? root = none ↔ ∀ j, ReflTransGen d.Calls root j → ¬d.NeedsByItself j := by
  constructor
  · intro result j reached
    refine (searching_start d root).missed once bound (List.nodup_singleton _) ?_
      (Nat.lt_succ_self _) result reached
    intro i member
    rwa [List.mem_singleton.1 member]
  · intro plain
    cases result : d.interpreterPath? root with
    | none => rfl
    | some path =>
      obtain ⟨j, whole, own, -⟩ := (searching_start d root).found result
      obtain ⟨rest, rfl⟩ := whole.reversed
      exact absurd own (plain j (exists_callPath_iff.1 ⟨rest, whole⟩))

/-- Where words that need the interpreter do not call each other in turn, each of them leads to one
that needs it by itself. -/
theorem exists_needsByItself (needs : d.NeedsInterpreter i)
    (apart : ∀ j k, ReflTransGen d.Calls i j → d.NeedsInterpreter j → ReflTransGen d.Calls j k →
      ReflTransGen d.Calls k j → j = k) :
    ∃ j, ReflTransGen d.Calls i j ∧ d.NeedsByItself j := by
  classical
  -- The words that calls lead to get fewer with every call to another word.
  induction measure : ((Finset.range d.size).filter (ReflTransGen d.Calls i)).card using
    Nat.strong_induction_on generalizing i with
  | _ n smaller =>
    by_cases own : d.NeedsByItself i
    · exact ⟨i, .refl, own⟩
    · obtain ⟨j, call, other, needs'⟩ : ∃ j, d.Calls i j ∧ j ≠ i ∧ d.NeedsInterpreter j := by
        simpa [NeedsByItself, needs] using own
      have fewer : (Finset.range d.size).filter (ReflTransGen d.Calls j) ⊂
          (Finset.range d.size).filter (ReflTransGen d.Calls i) := by
        refine Finset.ssubset_iff_of_subset (fun k member => ?_) |>.2 ⟨i, ?_, fun member => ?_⟩
        · rw [Finset.mem_filter] at member ⊢
          exact ⟨member.1, member.2.head call⟩
        · obtain ⟨e, found, -⟩ := needs
          exact Finset.mem_filter.2 ⟨Finset.mem_range.2 (get?_lt found), .refl⟩
        · exact other (apart i j .refl needs (.single call) (Finset.mem_filter.1 member).2).symm
      obtain ⟨k, reached, own'⟩ := smaller _ (measure ▸ Finset.card_lt_card fewer) needs'
        (fun a b reached => apart a b (reached.head call)) rfl
      exact ⟨k, reached.head call, own'⟩

/-! ## The names that are shown -/

/-- The names that are shown are those along a path of calls from `root` to a word that needs the
interpreter by itself, and no path of calls to such a word is shorter. -/
theorem names_along_shortest_path {names : List String}
    (shown : d.interpreterNames? root = some names) :
    ∃ path j, d.CallPath root j path ∧ d.NeedsByItself j ∧
      (path.map fun i => (d.get? i).map (·.name)) = names.map some ∧
      ∀ j' path', d.CallPath root j' path' → d.NeedsByItself j' → path.length ≤ path'.length := by
  obtain ⟨path, result, rfl⟩ := Option.map_eq_some_iff.1 shown
  obtain ⟨j, whole, own, shortest⟩ := (searching_start d root).found result
  obtain ⟨e, found, -⟩ := own.1
  have present := whole.present found
  refine ⟨path, j, whole, own, ?_, shortest⟩
  rw [List.map_filterMap_some_eq_filter_map_isSome, List.filter_eq_self.2]
  simpa using present

/-- Two words that call each other and both call a third, and two ways on from there: the shorter
one is shown. -/
theorem names_along_shortest_path_in_cycle :
    ∃ d : Dictionary, d.interpreterNames? 0 = some ["main", "show", "."] ∧
      d.Calls 0 1 ∧ d.Calls 1 0 ∧ (∃ j, d.CallPath 0 j [0, 1, 4, 5] ∧ d.NeedsByItself j) ∧
      ∃ path j, d.CallPath 0 j path ∧ d.NeedsByItself j ∧
        (path.map fun i => (d.get? i).map (·.name)) = ["main", "show", "."].map some ∧
        ∀ j' path', d.CallPath 0 j' path' → d.NeedsByItself j' → path.length ≤ path'.length := by
  let word (name : String) (callees : List EntryId) (interpreterOnly : Bool) : Entry :=
    { name, kind := .intrinsic 0, inputs := 0, outputs := 0, flags := { interpreterOnly }, callees }
  let d : Dictionary := { entries := #[word "main" [1, 2] true, word "again" [0, 2, 4] true,
    word "show" [3] true, word "." [] true, word "end" [5] true, word "cr" [] true] }
  have shown : d.interpreterNames? 0 = some ["main", "show", "."] := by decide +kernel
  have calls : ∀ {i j e}, d.get? i = some e → j ∈ e.callees → d.Calls i j :=
    fun found called => ⟨_, found, called⟩
  refine ⟨d, shown, calls rfl (by decide), calls rfl (by decide), ⟨5, ⟨rfl, ?_, rfl⟩, ?_⟩,
    names_along_shortest_path shown⟩
  · exact .cons_cons (calls rfl (by decide)) (.cons_cons (calls rfl (by decide))
      (.cons_cons (calls rfl (by decide)) (.singleton 5)))
  · exact (originatesInterpreter_iff (e := word "cr" [] true) rfl).1 (by decide)

end ForthJit.Dictionary
