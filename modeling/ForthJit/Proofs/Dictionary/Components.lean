import ForthJit.Proofs.Dictionary.CallGraph
import ForthJit.Proofs.Dictionary.Search
import Mathlib.Data.Set.Basic

/-!
# Strongly connected components of the graph of calls

Compiled words are strongly connected if each calls the other, directly or through further compiled
words.  `Dictionary.recursion_exact` says that the analysis lists the components that are recursive,
each once, and that a word counts as recursive exactly if it reaches itself.  It holds of any graph
of calls, in whatever order they are recorded.  In a graph whose calls go to older words or to the
word itself, `Dictionary.cycles_eq`, the only cycles are words that call themselves.
-/

namespace ForthJit.Dictionary

open Relation

variable {d : Dictionary} {C : Set EntryId} {u v w : EntryId}

/-! ## The components that are found -/

theorem isCompiled_lt (compiled : d.isCompiled v = true) : v < d.size := by
  unfold isCompiled at compiled
  cases found : d.get? v with
  | none =>
    rw [found] at compiled
    cases compiled
  | some e => exact get?_lt found

theorem mem_compiledWords : v ∈ d.compiledWords ↔ d.isCompiled v = true := by
  rw [compiledWords, List.mem_filter, List.mem_range]
  exact and_iff_right_of_imp isCompiled_lt

theorem components_spec (d : Dictionary) :
    (∀ c ∈ d.components, Search.IsComponent d.compiledCallees c ∧ ∀ v ∈ c, d.isCompiled v = true) ∧
      (∀ v, d.isCompiled v = true → ∃ c ∈ d.components, v ∈ c) ∧
      d.components.Pairwise fun c c' => ∀ v ∈ c, v ∉ c' := by
  have inside : ∀ v ∈ d.compiledWords, ∀ w ∈ d.compiledCallees v, w ∈ d.compiledWords := by
    intro v _ w edge
    obtain ⟨e, -, -, -, compiled⟩ := mem_compiledCallees.1 edge
    exact mem_compiledWords.2 compiled
  have enough : d.compiledWords.length < d.size + 1 := by
    have length := List.length_filter_le d.isCompiled (List.range d.size)
    rw [List.length_range] at length
    exact Nat.lt_succ_of_le length
  obtain ⟨sound, complete, apart⟩ := Search.run_components inside enough
  simp only [mem_compiledWords] at sound complete
  simp only [components, List.mem_reverse, List.pairwise_reverse]
  exact ⟨sound, complete, apart.imp fun apart v member' member => apart v member member'⟩

/-- A component that counts as a cycle has several members or one that calls itself. -/
theorem isCycle_iff {c : List EntryId} (component : Search.IsComponent d.compiledCallees c) :
    d.isCycle c = true ↔ (∃ v ∈ c, ∃ w ∈ c, v ≠ w) ∨ ∃ v ∈ c, v ∈ d.compiledCallees v := by
  match c with
  | [] | [v] => simp [isCycle]
  | v :: w :: rest =>
    have differ : v ≠ w := fun same =>
      (List.nodup_cons.1 component.1).1 (same ▸ List.mem_cons_self)
    refine iff_of_true rfl (.inl ⟨v, List.mem_cons_self, w, ?_, differ⟩)
    exact List.mem_cons_of_mem _ List.mem_cons_self

/-! ## Components -/

/-- Compiled word `v` calls compiled word `w`. -/
def Edge (d : Dictionary) (v w : EntryId) : Prop := w ∈ d.compiledCallees v

/-- `C` is a strongly connected component of the compiled words. -/
def Component (d : Dictionary) (C : Set EntryId) : Prop :=
  ∃ w, d.isCompiled w = true ∧
    C = {v | d.isCompiled v = true ∧ ReflTransGen d.Edge w v ∧ ReflTransGen d.Edge v w}

/-- The words in `C` are recursive: there are several of them, or one that calls itself. -/
def Recursive (d : Dictionary) (C : Set EntryId) : Prop :=
  (∃ v ∈ C, ∃ w ∈ C, v ≠ w) ∨ ∃ v ∈ C, d.Edge v v

/-- A component is found from any of its members. -/
theorem Component.eq_of_mem (component : d.Component C) (member : v ∈ C) :
    C = {w | d.isCompiled w = true ∧ ReflTransGen d.Edge v w ∧ ReflTransGen d.Edge w v} := by
  obtain ⟨u, -, rfl⟩ := component
  obtain ⟨-, ahead, back⟩ := member
  ext w
  constructor
  · rintro ⟨compiled, there, here⟩
    exact ⟨compiled, back.trans there, here.trans ahead⟩
  · rintro ⟨compiled, there, here⟩
    exact ⟨compiled, ahead.trans there, here.trans back⟩

/-- In a recursive component every word reaches itself. -/
theorem Component.reaches (component : d.Component C) (recursive : d.Recursive C) (member : v ∈ C) :
    TransGen d.Edge v v := by
  -- Some word of the component reaches itself by a path that is not empty.
  obtain ⟨u, inside, around⟩ : ∃ u ∈ C, TransGen d.Edge u u := by
    rcases recursive with ⟨u, inside, w, inside', differ⟩ | ⟨u, inside, edge⟩
    · rw [component.eq_of_mem inside] at inside'
      obtain ⟨-, there, here⟩ := inside'
      rcases reflTransGen_iff_eq_or_transGen.1 there with same | path
      · exact absurd same.symm differ
      · exact ⟨u, inside, path.trans_left here⟩
    · exact ⟨u, inside, .single edge⟩
  rw [component.eq_of_mem member] at inside
  obtain ⟨-, there, here⟩ := inside
  exact (TransGen.trans_right there around).trans_left here

/-- A word that reaches itself is in a recursive component. -/
theorem exists_recursive (compiled : d.isCompiled v = true) (around : TransGen d.Edge v v) :
    ∃ C, d.Component C ∧ d.Recursive C ∧ v ∈ C := by
  refine ⟨_, ⟨v, compiled, rfl⟩, ?_, compiled, .refl, .refl⟩
  obtain ⟨w, edge, back⟩ := TransGen.head'_iff.1 around
  by_cases same : w = v
  · rw [same] at edge
    exact .inr ⟨v, ⟨compiled, .refl, .refl⟩, edge⟩
  · obtain ⟨e, -, -, -, compiled'⟩ := mem_compiledCallees.1 edge
    exact .inl ⟨v, ⟨compiled, .refl, .refl⟩, w, ⟨compiled', .single edge, back⟩, fun other =>
      same other.symm⟩

/-- The components that the search finds are those of the graph. -/
theorem component_iff : d.Component C ↔ ∃ c ∈ d.components, {v | v ∈ c} = C := by
  have listed : ∀ c ∈ d.components, d.Component {v | v ∈ c} := by
    intro c isFound
    obtain ⟨⟨-, v, member, both⟩, compiled⟩ := (components_spec d).1 c isFound
    refine ⟨v, compiled v member, Set.ext fun w => ?_⟩
    exact ⟨fun inside => ⟨compiled w inside, (both w).1 inside⟩, fun inside => (both w).2 inside.2⟩
  constructor
  · intro component
    obtain ⟨v, member⟩ : ∃ v, v ∈ C := by
      obtain ⟨v, compiled, rfl⟩ := component
      exact ⟨v, compiled, .refl, .refl⟩
    have compiled : d.isCompiled v = true := by
      rw [component.eq_of_mem member] at member
      exact member.1
    obtain ⟨c, isFound, inside⟩ := (components_spec d).2.1 v compiled
    exact ⟨c, isFound,
      ((listed c isFound).eq_of_mem inside).trans (component.eq_of_mem member).symm⟩
  · rintro ⟨c, isFound, rfl⟩
    exact listed c isFound

theorem mem_cycles_iff :
    C ∈ d.cycles.map (fun cycle => {v | v ∈ cycle}) ↔ d.Component C ∧ d.Recursive C := by
  rw [List.mem_map, component_iff]
  constructor
  · rintro ⟨c, listed, rfl⟩
    obtain ⟨isFound, isCycle⟩ := List.mem_filter.1 listed
    exact ⟨⟨c, isFound, rfl⟩, (isCycle_iff ((components_spec d).1 c isFound).1).1 isCycle⟩
  · rintro ⟨⟨c, isFound, rfl⟩, recursive⟩
    have isCycle := (isCycle_iff ((components_spec d).1 c isFound).1).2 recursive
    exact ⟨c, List.mem_filter.2 ⟨isFound, isCycle⟩, rfl⟩

/-- The list of cycles holds each strongly connected component with several members or a self edge
exactly once, and nothing else; and a word counts as recursive exactly if it is compiled and reaches
itself, and exactly if it is a member of a cycle. -/
theorem recursion_exact (d : Dictionary) :
    (d.cycles.map fun cycle => {v | v ∈ cycle}).Nodup ∧
      (∀ C, C ∈ d.cycles.map (fun cycle => {v | v ∈ cycle}) ↔ d.Component C ∧ d.Recursive C) ∧
      ∀ w, (d.isRecursive w = true ↔ d.isCompiled w = true ∧ TransGen d.Edge w w) ∧
        (d.isRecursive w = true ↔ ∃ cycle ∈ d.cycles, w ∈ cycle) := by
  have isRecursive : ∀ w, d.isRecursive w = true ↔ ∃ cycle ∈ d.cycles, w ∈ cycle := by
    intro w
    simp only [Dictionary.isRecursive, List.any_eq_true, List.contains_iff_mem]
  refine ⟨?_, fun C => mem_cycles_iff, fun w => ⟨(isRecursive w).trans ⟨?_, ?_⟩, isRecursive w⟩⟩
  · -- No word is in two components, and none of them is empty.
    refine List.pairwise_map.2 (((components_spec d).2.2.filter _).imp_of_mem ?_)
    intro c c' listed _ apart same
    obtain ⟨-, v, member, -⟩ := ((components_spec d).1 c (List.mem_filter.1 listed).1).1
    exact apart v member ((Set.ext_iff.1 same v).1 member)
  · rintro ⟨c, listed, inside⟩
    obtain ⟨component, recursive⟩ := mem_cycles_iff.1 (List.mem_map_of_mem listed)
    obtain ⟨compiled, -⟩ := (Set.ext_iff.1 (component.eq_of_mem inside) w).1 inside
    exact ⟨compiled, component.reaches recursive inside⟩
  · rintro ⟨compiled, around⟩
    obtain ⟨C, component, recursive, inside⟩ := exists_recursive compiled around
    obtain ⟨c, listed, rfl⟩ := List.mem_map.1 (mem_cycles_iff.2 ⟨component, recursive⟩)
    exact ⟨c, listed, inside⟩

/-- Words 0, 2 and 4 call each other around, word 1 calls itself, and word 3 is called from the
first cycle and calls into the second.  Entry 5 calls itself and is no compiled word. -/
example :
    let word (callees : List EntryId) : Entry :=
      { name := "", kind := .compiled { layout := {} }, inputs := 0, outputs := 0, callees }
    ({ entries := #[word [2], word [1], word [4, 3], word [1], word [3, 0],
        { word [5] with kind := .intrinsic 0 }] } : Dictionary).cycles = [[1], [4, 2, 0]] := by
  decide +kernel

/-! ## Calls to older words -/

/-- Every component is a single word. -/
theorem WellFormed.components_eq (wellFormed : d.WellFormed) :
    d.components = d.compiledWords.map fun id => [id] := by
  have ascending : d.compiledWords.Pairwise (· < ·) := List.pairwise_lt_range.filter _
  rw [components, Search.run_older (ascending.imp Nat.ne_of_lt), List.reverse_reverse]
  intro front v back split w edge
  obtain ⟨e, -, -, -, compiled⟩ := mem_compiledCallees.1 edge
  have member := mem_compiledWords.2 compiled
  rw [split, List.mem_append, List.mem_cons] at member
  refine member.imp_right fun later => later.resolve_right fun newer => ?_
  rw [split, List.pairwise_append] at ascending
  have less := (List.pairwise_cons.1 ascending.2.1).1 w newer
  exact absurd (wellFormed.compiledCallees_le edge) (Nat.not_le_of_lt less)

/-- The cycles are the compiled words that call themselves, each on its own. -/
theorem cycles_eq {ids : List EntryId} (linked : d.Linked ids) (wellFormed : d.WellFormed) :
    d.cycles = ((List.range d.size).filter fun id =>
      decide (id ∈ ids) && d.isCompiled id).map fun id => [id] := by
  have called : ∀ id ∈ List.range d.size, (d.isCycle [id] && d.isCompiled id) =
      (decide (id ∈ ids) && d.isCompiled id) := by
    intro id inRange
    obtain ⟨e, isEntry⟩ := get?_of_lt (List.mem_range.1 inRange)
    rw [Bool.eq_iff_iff]
    simp only [isCycle, Bool.and_eq_true, List.contains_iff_mem, mem_compiledCallees, isEntry,
      Option.some.injEq, exists_eq_left', linked.self isEntry, decide_eq_true_eq]
    tauto
  rw [cycles, wellFormed.components_eq, compiledWords, List.filter_map, List.filter_filter]
  exact congrArg _ (List.filter_congr called)

end ForthJit.Dictionary
