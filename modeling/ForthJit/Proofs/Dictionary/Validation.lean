import ForthJit.Proofs.Dictionary.CallGraph

/-!
# Which words need no interpreter

A word can be compiled for itself if calls lead from it to no word that needs the interpreter.  The
search looks for the word where the flag comes from, one that calls no other word with the flag.  On
a cycle of words with the flag there may be no such word, and only there can the search miss them.
-/

namespace ForthJit.Dictionary

open Relation

variable {d : Dictionary} {cs : List Change} {root : EntryId}

theorem History.linked (history : History cs d) : ∃ ids, d.Linked ids := by
  induction history with
  | empty => exact ⟨[], .empty⟩
  | @step cs d c _ fits ih =>
    obtain ⟨ids, linked⟩ := ih
    cases c with
    | create e alone =>
      refine ⟨_, linked.cut.create (fun member => ?_) alone.1⟩
      simpa using List.of_mem_filter member
    | publish id => exact ⟨ids, linked.sameCalls (.publish d id)⟩
    | addCall caller callee =>
      refine ⟨if caller = callee then caller :: ids else ids, linked.addCall fits.2 fun i => ?_⟩
      split <;> grind
    | markThrows id => exact ⟨ids, linked.sameCalls (.markThrows d id)⟩
    | markInterpreterOnly id => exact ⟨ids, linked.sameCalls (.markInterpreterOnly d id)⟩

/-- Calls lead from `root` to two words with the interpreter flag that call each other, directly or
through others. -/
def Entangled (d : Dictionary) (root : EntryId) : Prop :=
  ∃ i j, i ≠ j ∧ d.NeedsInterpreter i ∧ ReflTransGen d.Calls root i ∧ ReflTransGen d.Calls i j ∧
    ReflTransGen d.Calls j i

/-- A word passes if and only if each word with the interpreter flag that calls lead to calls
another one with the flag.  So it passes where there is none, and only there unless two of them call
each other. -/
theorem validation_exact (history : History cs d) (inside : root < d.size) :
    (d.interpreterNames? root = none ↔ ∀ i, ReflTransGen d.Calls root i → d.NeedsInterpreter i →
      ∃ j, j ≠ i ∧ d.Calls i j ∧ d.NeedsInterpreter j) ∧
    ((∀ i, ReflTransGen d.Calls root i → ¬d.NeedsInterpreter i) → d.interpreterNames? root = none) ∧
    (¬d.Entangled root → d.interpreterNames? root = none →
      ∀ i, ReflTransGen d.Calls root i → ¬d.NeedsInterpreter i) := by
  obtain ⟨ids, linked⟩ := history.linked
  have none_iff : d.interpreterNames? root = none ↔
      ∀ i, ReflTransGen d.Calls root i → ¬d.NeedsByItself i := by
    rw [interpreterNames?, Option.map_eq_none_iff]
    refine interpreterPath?_eq_none_iff (fun i e found => ?_) (fun i j call => ?_) inside
    · exact (linked.ascending found).imp Nat.ne_of_lt
    · exact (history.kept.calls_lt i j (history.kept.calls_iff.1 call)).2
  refine ⟨none_iff.trans ?_, fun plain => ?_, fun untangled passes i reached needs => ?_⟩
  · refine forall₂_congr fun i _ => ?_
    simp only [NeedsByItself, not_and, not_forall, not_not, exists_prop]
    exact forall_congr' fun _ => exists_congr fun j => and_left_comm
  · exact none_iff.2 fun i reached own => plain i reached own.1
  · obtain ⟨j, further, own⟩ := exists_needsByItself needs fun j k there needs' on back => by
      by_contra other
      exact untangled ⟨j, k, other, needs', reached.trans there, on, back⟩
    exact none_iff.1 passes j (reached.trans further) own

/-- A word that calls itself and one that needs the interpreter does not pass. -/
theorem validation_exact_recursive :
    ∃ cs d, History cs d ∧ 0 < d.size ∧ d.interpreterNames? 0 = some ["main", "."] ∧
      ¬∀ i, ReflTransGen d.Calls 0 i → d.NeedsInterpreter i →
        ∃ j, j ≠ i ∧ d.Calls i j ∧ d.NeedsInterpreter j := by
  let word (name : String) : Change :=
    .create { name, kind := .intrinsic 0, inputs := 0, outputs := 0 } ⟨rfl, rfl⟩
  let cs : List Change := [word "main", word ".", .publish 1, .addCall 0 0, .addCall 0 1,
    .markInterpreterOnly 1]
  have history := History.empty.steps cs (by decide +kernel)
  have inside : 0 < (cs.foldl Change.apply {}).size := by decide +kernel
  have refused : (cs.foldl Change.apply {}).interpreterNames? 0 = some ["main", "."] := by
    decide +kernel
  refine ⟨_, _, history, inside, refused, fun each => ?_⟩
  cases refused.symm.trans ((validation_exact history inside).1.2 each)

/-- Two words that call each other pass although they need the interpreter. -/
theorem entangled_words_pass :
    ∃ cs d, History cs d ∧ d.NeedsInterpreter 0 ∧ d.Calls 0 1 ∧ d.Calls 1 0 ∧
      d.interpreterNames? 0 = none := by
  let word (name : String) : Change :=
    .create { name, kind := .intrinsic 0, inputs := 0, outputs := 0 } ⟨rfl, rfl⟩
  let cs : List Change := [word "ping", word "pong", .addCall 0 1, .addCall 1 0,
    .markInterpreterOnly 0]
  have history := History.empty.steps cs (by decide +kernel)
  have flagged : (((cs.foldl Change.apply {}).get? 0).map (·.flags.interpreterOnly)) =
      some true := by
    decide +kernel
  have passes : (cs.foldl Change.apply {}).interpreterNames? 0 = none := by decide +kernel
  have calls : .addCall 0 1 ∈ cs ∧ .addCall 1 0 ∈ cs := by decide +kernel
  generalize cs.foldl Change.apply {} = d at history flagged passes
  exact ⟨_, d, history, Option.map_eq_some_iff.1 flagged, history.kept.calls_iff.2 calls.1,
    history.kept.calls_iff.2 calls.2, passes⟩

end ForthJit.Dictionary
