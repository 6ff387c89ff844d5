import ForthJit.Dictionary.Search
import Mathlib.Data.List.Induction
import Mathlib.Data.List.Nodup
import Mathlib.Data.List.Perm.Subperm
import Mathlib.Logic.Relation

/-!
# The search for strongly connected components

`Search.Searching` is what holds between two steps of the search while the visits of the words in
`path` are going on: the older of two words on the stack reaches the newer, every word on the stack
reaches one in `path` that is no newer, and what has left the stack is a union of components.
`Search.Visited` is what a whole visit does; with it, `Search.run_components` says that the search
finds every component once.
-/

namespace ForthJit.Search

open Relation

variable {next : EntryId → List EntryId} {words path callees : List EntryId} {s s' s'' t : Search}
  {u v w : EntryId} {low below fuel : Nat}

/-- There is a chain of calls from `v` to `w`, which may be empty. -/
abbrev Reaches (next : EntryId → List EntryId) : EntryId → EntryId → Prop :=
  ReflTransGen fun v w => w ∈ next v

def Reached (s : Search) (v : EntryId) : Prop := v ∈ s.indices.map Prod.fst

/-- The number of a word that was reached. -/
def num (s : Search) (v : EntryId) : Nat := (s.index? v).getD 0

theorem index?_eq_none : s.index? v = none ↔ ¬ s.Reached v := by
  simp only [index?, Reached, List.lookup_eq_none_iff, List.mem_map, not_exists, not_and]
  constructor
  · intro absent p member same
    simpa [same] using absent p member
  · intro absent p member
    simpa using fun same => absent p member same.symm

theorem reached_of_index? {i : Nat} (found : s.index? v = some i) : s.Reached v := by
  by_contra absent
  rw [index?_eq_none.2 absent] at found
  cases found

theorem num_of_index? {i : Nat} (found : s.index? v = some i) : s.num v = i := by
  rw [num, found]
  rfl

theorem reached_enter : (s.enter v).Reached w ↔ w = v ∨ s.Reached w := by
  simp [Reached, enter]

theorem num_enter_self : (s.enter v).num v = s.counter := by
  simp [num, index?, enter]

theorem num_enter_of_ne (other : w ≠ v) : (s.enter v).num w = s.num w := by
  have differ : (w == v) = false := by simpa using other
  simp [num, index?, enter, List.lookup_cons, differ]

/-- A later search keeps what was reached, with its number. -/
structure Extends (s s' : Search) : Prop where
  counter : s.counter ≤ s'.counter
  reached : ∀ v, s.Reached v → s'.Reached v
  num : ∀ v, s.Reached v → s'.num v = s.num v

theorem Extends.refl (s : Search) : Extends s s := ⟨Nat.le_refl _, fun _ => id, fun _ _ => rfl⟩

theorem Extends.trans (first : Extends s s') (second : Extends s' s'') : Extends s s'' where
  counter := Nat.le_trans first.counter second.counter
  reached v old := second.reached v (first.reached v old)
  num v old := (second.num v (first.reached v old)).trans (first.num v old)

theorem Extends.enter (new : ¬ s.Reached v) : Extends s (s.enter v) where
  counter := Nat.le_succ _
  reached _ old := reached_enter.2 (.inr old)
  num _ old := num_enter_of_ne fun same => new (same ▸ old)

/-- `c` lists a strongly connected component. -/
def IsComponent (next : EntryId → List EntryId) (c : List EntryId) : Prop :=
  c.Nodup ∧ ∃ v ∈ c, ∀ w, w ∈ c ↔ Reaches next v w ∧ Reaches next w v

/-- `v` is in a component that was found. -/
def Closed (s : Search) (v : EntryId) : Prop := ∃ c ∈ s.components, v ∈ c

/-- The words in `path` are being visited, the first of them inside the visits of the others. -/
structure Searching (next : EntryId → List EntryId) (words path : List EntryId) (s : Search) :
    Prop where
  count : s.indices.length = s.counter
  nodup : (s.indices.map Prod.fst).Nodup
  inside : ∀ v, s.Reached v → v ∈ words
  below : ∀ v, s.Reached v → s.num v < s.counter
  order : s.stack.Pairwise fun v w => s.num w < s.num v
  reached : ∀ v, s.Reached v ↔ v ∈ s.stack ∨ s.Closed v
  unclosed : ∀ v ∈ s.stack, ¬ s.Closed v
  onPath : ∀ v ∈ path, v ∈ s.stack
  finished : ∀ v, s.Reached v → v ∉ path → ∀ w ∈ next v, s.Reached w
  newer : ∀ v ∈ s.stack, ∀ w ∈ s.stack, s.num v ≤ s.num w → Reaches next v w
  older : ∀ w ∈ s.stack, ∃ v ∈ path, s.num v ≤ s.num w ∧ Reaches next w v
  closed : ∀ v, s.Closed v → ∀ w ∈ next v, s.Closed w
  component : ∀ c ∈ s.components, IsComponent next c
  apart : s.components.Pairwise fun c c' => ∀ v ∈ c, v ∉ c'

namespace Searching

variable (searching : Searching next words path s)
include searching

theorem reached_of_mem (member : v ∈ s.stack) : s.Reached v := (searching.reached v).2 (.inl member)

/-- What lies higher on the stack is newer. -/
theorem num_lt {above under : List EntryId} (stack : s.stack = above ++ under) (higher : v ∈ above)
    (lower : w ∈ under) : s.num w < s.num v := by
  have order := searching.order
  rw [stack] at order
  exact (List.pairwise_append.1 order).2.2 v higher w lower

/-- The fuel is enough as long as a word is left. -/
theorem counter_lt (word : v ∈ words) (new : ¬ s.Reached v) : s.counter < words.length := by
  have distinct : (v :: s.indices.map Prod.fst).Nodup := List.nodup_cons.2 ⟨new, searching.nodup⟩
  have known : v :: s.indices.map Prod.fst ⊆ words := by
    intro w member
    rcases List.mem_cons.1 member with rfl | old
    · exact word
    · exact searching.inside w old
  have length := (distinct.subperm known).length_le
  rw [List.length_cons, List.length_map, searching.count] at length
  exact length

/-- From a closed word only closed words are reached. -/
theorem closed_of_reaches (start : s.Closed v) (path : Reaches next v w) : s.Closed w := by
  induction path with
  | refl => exact start
  | tail _ edge ih => exact searching.closed _ ih _ edge

/-- A word that is entered comes onto the path. -/
theorem enter (word : v ∈ words) (new : ¬ s.Reached v) (called : ∀ u ∈ path, Reaches next u v) :
    Searching next words (v :: path) (s.enter v) := by
  have old : ∀ w, s.Reached w → (s.enter v).num w = s.num w := (Extends.enter new).num
  have onStack : ∀ w ∈ s.stack, (s.enter v).num w = s.num w := fun w member =>
    old w (searching.reached_of_mem member)
  have lower : ∀ w ∈ s.stack, (s.enter v).num w < s.counter := fun w member =>
    onStack w member ▸ searching.below w (searching.reached_of_mem member)
  constructor
  case count => exact congrArg (· + 1) searching.count
  case nodup => exact List.nodup_cons.2 ⟨new, searching.nodup⟩
  case inside =>
    intro w reached
    rcases reached_enter.1 reached with rfl | reached
    · exact word
    · exact searching.inside w reached
  case below =>
    intro w reached
    rcases reached_enter.1 reached with rfl | reached
    · rw [num_enter_self]
      exact Nat.lt_succ_self _
    · rw [old w reached]
      exact Nat.lt_succ_of_lt (searching.below w reached)
  case order =>
    refine List.pairwise_cons.2 ⟨fun w member => ?_, ?_⟩
    · rw [num_enter_self]
      exact lower w member
    · refine searching.order.imp_of_mem fun {a b} inA inB less => ?_
      rw [onStack a inA, onStack b inB]
      exact less
  case reached =>
    intro w
    rw [reached_enter, searching.reached, ← or_assoc]
    exact or_congr_left List.mem_cons.symm
  case unclosed =>
    intro w member
    rcases List.mem_cons.1 member with rfl | member
    · exact fun closed => new ((searching.reached w).2 (.inr closed))
    · exact searching.unclosed w member
  case onPath =>
    intro w member
    rcases List.mem_cons.1 member with rfl | member
    · exact List.mem_cons_self
    · exact List.mem_cons_of_mem _ (searching.onPath w member)
  case finished =>
    intro w reached off x edge
    rcases reached_enter.1 reached with rfl | reached
    · exact absurd List.mem_cons_self off
    · refine reached_enter.2 (.inr (searching.finished w reached (fun member => ?_) x edge))
      exact off (List.mem_cons_of_mem _ member)
  case newer =>
    intro a memberA b memberB less
    rcases List.mem_cons.1 memberA with rfl | inA <;> rcases List.mem_cons.1 memberB with rfl | inB
    · exact .refl
    · rw [num_enter_self] at less
      exact absurd (lower b inB) (Nat.not_lt.2 less)
    · obtain ⟨u, onPath, -, back⟩ := searching.older a inA
      exact back.trans (called u onPath)
    · rw [onStack a inA, onStack b inB] at less
      exact searching.newer a inA b inB less
  case older =>
    intro w member
    rcases List.mem_cons.1 member with rfl | member
    · exact ⟨w, List.mem_cons_self, Nat.le_refl _, .refl⟩
    · obtain ⟨u, onPath, less, back⟩ := searching.older w member
      refine ⟨u, List.mem_cons_of_mem _ onPath, ?_, back⟩
      rw [onStack u (searching.onPath u onPath), onStack w member]
      exact less
  case closed => exact searching.closed
  case component => exact searching.component
  case apart => exact searching.apart

end Searching

/-- What a visit of `v` does, whose low is then `low`. -/
structure Visited (next : EntryId → List EntryId) (words path : List EntryId) (s : Search)
    (v : EntryId) (low : Nat) (t : Search) : Prop where
  searching : Searching next words path t
  kept : Extends s t
  reached : t.Reached v
  lowest : low = s.counter ∨ ∃ y ∈ s.stack, s.num y = low ∧ Reaches next v y
  grown : ∃ new, t.stack = new ++ s.stack ∧ ∀ u ∈ new, ∀ w ∈ next u, w ∈ s.stack → low ≤ s.num w

/-- Between two callees of `v`, which was entered from `s`: those in `left` are still to be
followed. -/
structure Following (next : EntryId → List EntryId) (words path : List EntryId) (s : Search)
    (v : EntryId) (left : List EntryId) (low : Nat) (t : Search) : Prop where
  searching : Searching next words (v :: path) t
  kept : Extends (s.enter v) t
  lowest : low = s.counter ∨ ∃ y ∈ s.stack, s.num y = low ∧ Reaches next v y
  grown : ∃ new, t.stack = new ++ v :: s.stack ∧ ∀ u ∈ new, ∀ w ∈ next u, w ∈ s.stack →
    low ≤ s.num w
  callees : ∀ w ∈ left, w ∈ next v
  followed : ∀ w ∈ next v, w ∈ left ∨ t.Reached w ∧ (w ∈ s.stack → low ≤ s.num w)

namespace Following

variable {left : List EntryId} (following : Following next words path s v left low t)

include following

theorem low_le (searching : Searching next words path s) : low ≤ s.counter := by
  rcases following.lowest with same | ⟨y, member, rfl, -⟩
  · exact Nat.le_of_eq same
  · exact Nat.le_of_lt (searching.below y (searching.reached_of_mem member))

/-- `v` reaches the word with the lower of two numbers, if that is an older one. -/
theorem lowest_min (searching : Searching next words path s)
    (candidate : below < s.counter → ∃ y ∈ s.stack, s.num y = below ∧ Reaches next v y) :
    min low below = s.counter ∨ ∃ y ∈ s.stack, s.num y = min low below ∧ Reaches next v y := by
  have bound := following.low_le searching
  rcases Nat.le_total low below with less | less
  · rw [Nat.min_eq_left less]
    exact following.lowest
  · rw [Nat.min_eq_right less]
    by_cases older : below < s.counter
    · exact .inr (candidate older)
    · exact .inl (Nat.le_antisymm (Nat.le_trans less bound) (Nat.not_lt.1 older))

theorem num_self : t.num v = s.counter :=
  (following.kept.num v (reached_enter.2 (.inl rfl))).trans num_enter_self

/-- What is on the stack and older than `v` was there before. -/
theorem mem_of_num_lt (member : w ∈ t.stack) (less : t.num w < s.counter) : w ∈ s.stack := by
  obtain ⟨above, stack, -⟩ := following.grown
  rw [stack] at member
  rcases List.mem_append.1 member with isAbove | old
  · have newer := following.searching.num_lt stack isAbove List.mem_cons_self
    rw [following.num_self] at newer
    omega
  · rcases List.mem_cons.1 old with rfl | old
    · rw [following.num_self] at less
      omega
    · exact old

theorem counter_lt : s.counter < t.counter :=
  Nat.lt_of_lt_of_le (Nat.lt_succ_self _) following.kept.counter

theorem num_of_mem (searching : Searching next words path s) (new : ¬ s.Reached v)
    (member : w ∈ s.stack) : t.num w = s.num w :=
  ((Extends.enter new).trans following.kept).num w (searching.reached_of_mem member)

end Following

variable {left : List EntryId}

/-- A callee that was not reached is visited. -/
theorem Following.visited (following : Following next words path s v (w :: left) low t)
    (searching : Searching next words path s) (new : ¬ s.Reached v) (newCallee : ¬ t.Reached w)
    (visited : Visited next words (v :: path) t w below s') :
    Following next words path s v left (min low below) s' := by
  have edge := following.callees w List.mem_cons_self
  obtain ⟨above, stack, crossing⟩ := following.grown
  obtain ⟨above', stack', crossing'⟩ := visited.grown
  have onStack : ∀ x ∈ s.stack, x ∈ t.stack := fun x member => by
    rw [stack]
    exact List.mem_append_right _ (List.mem_cons_of_mem _ member)
  refine ⟨visited.searching, following.kept.trans visited.kept, ?_, ⟨above' ++ above, ?_, ?_⟩,
    fun x member => following.callees x (List.mem_cons_of_mem _ member), ?_⟩
  · refine following.lowest_min searching fun older => ?_
    have later := following.counter_lt
    rcases visited.lowest with same | ⟨y, member, number, back⟩
    · omega
    · have old := following.mem_of_num_lt member (number ▸ older)
      refine ⟨y, old, ?_, .head edge back⟩
      rw [← following.num_of_mem searching new old, number]
  · rw [stack', stack, List.append_assoc]
  · intro x member y edge' old
    rcases List.mem_append.1 member with isAbove | isAbove
    · rw [← following.num_of_mem searching new old]
      exact Nat.le_trans (Nat.min_le_right _ _) (crossing' x isAbove y edge' (onStack y old))
    · exact Nat.le_trans (Nat.min_le_left _ _) (crossing x isAbove y edge' old)
  · intro x edge'
    rcases following.followed x edge' with member | ⟨reached, bounded⟩
    · rcases List.mem_cons.1 member with rfl | member
      · refine .inr ⟨visited.reached, fun old => ?_⟩
        exact absurd (following.searching.reached_of_mem (onStack x old)) newCallee
      · exact .inl member
    · exact .inr ⟨visited.kept.reached x reached, fun old =>
        Nat.le_trans (Nat.min_le_left _ _) (bounded old)⟩

/-- The number of a callee that is on the stack counts. -/
theorem Following.seen (following : Following next words path s v (w :: left) low t)
    (searching : Searching next words path s) (new : ¬ s.Reached v) (reached : t.Reached w) :
    Following next words path s v left
      (if t.stack.contains w then min low (t.num w) else low) t := by
  have edge := following.callees w List.mem_cons_self
  obtain ⟨above, stack, crossing⟩ := following.grown
  have lower : (if t.stack.contains w then min low (t.num w) else low) ≤ low := by
    split
    · exact Nat.min_le_left _ _
    · exact Nat.le_refl _
  refine ⟨following.searching, following.kept, ?_, ⟨above, stack, fun x isAbove y edge' old =>
    Nat.le_trans lower (crossing x isAbove y edge' old)⟩,
    fun x member => following.callees x (List.mem_cons_of_mem _ member), ?_⟩
  · split
    · rename_i onStack
      refine following.lowest_min searching fun older => ?_
      have old := following.mem_of_num_lt (List.contains_iff_mem.1 onStack) older
      exact ⟨w, old, (following.num_of_mem searching new old).symm, .single edge⟩
    · exact following.lowest
  · intro x edge'
    rcases following.followed x edge' with member | ⟨reached', bounded⟩
    · rcases List.mem_cons.1 member with rfl | member
      · refine .inr ⟨reached, fun old => ?_⟩
        have onStack : t.stack.contains x = true := by
          rw [List.contains_iff_mem, stack]
          exact List.mem_append_right _ (List.mem_cons_of_mem _ old)
        rw [if_pos onStack, following.num_of_mem searching new old]
        exact Nat.min_le_right _ _
      · exact .inl member
    · exact .inr ⟨reached', fun old => Nat.le_trans lower (bounded old)⟩

/-- All callees of `v` are followed, and they lead to an older word: `v` stays on the stack. -/
theorem Following.stays (following : Following next words path s v [] low t)
    (searching : Searching next words path s) (new : ¬ s.Reached v) (older : low ≠ s.counter) :
    Visited next words path s v low t := by
  obtain ⟨above, stack, crossing⟩ := following.grown
  have followed : ∀ w ∈ next v, t.Reached w ∧ (w ∈ s.stack → low ≤ s.num w) := fun w edge =>
    (following.followed w edge).resolve_left List.not_mem_nil
  obtain ⟨y, old, number, back⟩ := following.lowest.resolve_left older
  have less : s.num y < s.counter := searching.below y (searching.reached_of_mem old)
  have still := following.searching
  refine ⟨{ still with onPath := ?_, finished := ?_, older := ?_ },
    (Extends.enter new).trans following.kept,
    following.kept.reached v (reached_enter.2 (.inl rfl)), following.lowest, above ++ [v], ?_, ?_⟩
  · exact fun w member => still.onPath w (List.mem_cons_of_mem _ member)
  · intro w reached off x edge
    by_cases same : w = v
    · exact (followed x (same ▸ edge)).1
    · exact still.finished w reached (fun member => (List.mem_cons.1 member).elim same off) x edge
  · intro w member
    -- A word that reaches `v` reaches `y`, and from there an older word of the path.
    have onward : ∃ u ∈ path, t.num u ≤ t.num y ∧ Reaches next y u := by
      have member : y ∈ t.stack := by
        rw [stack]
        exact List.mem_append_right _ (List.mem_cons_of_mem _ old)
      obtain ⟨u, onPath, lower, back'⟩ := still.older y member
      rcases List.mem_cons.1 onPath with rfl | onPath
      · rw [following.num_self, following.num_of_mem searching new old] at lower
        omega
      · exact ⟨u, onPath, lower, back'⟩
    obtain ⟨u, onPath, lower, back'⟩ := still.older w member
    rcases List.mem_cons.1 onPath with rfl | onPath
    · obtain ⟨u', onPath', lower', back''⟩ := onward
      refine ⟨u', onPath', ?_, back'.trans (back.trans back'')⟩
      rw [following.num_self] at lower
      rw [following.num_of_mem searching new old] at lower'
      omega
    · exact ⟨u, onPath, lower, back'⟩
  · rw [stack, List.append_assoc, List.singleton_append]
  · intro x member w edge old'
    rcases List.mem_append.1 member with isAbove | isSelf
    · exact crossing x isAbove w edge old'
    · rw [List.mem_singleton.1 isSelf] at edge
      exact (followed w edge).2 old'

section Close

variable {above : List EntryId} (following : Following next words path s v [] s.counter t)
  (searching : Searching next words path s) (stack : t.stack = above ++ v :: s.stack)
  (crossing : ∀ u ∈ above, ∀ w ∈ next u, w ∈ s.stack → s.counter ≤ s.num w)
include following stack

theorem Following.not_mem_above (lower : w ∈ v :: s.stack) : w ∉ above := fun higher =>
  Nat.lt_irrefl _ (following.searching.num_lt stack higher lower)

theorem Following.close_eq : t.close v =
    { t with stack := s.stack, components := (above ++ [v]) :: t.components } := by
  have differ : ∀ w ∈ above, (w != v) = true := fun w member =>
    bne_iff_ne.2 fun same => following.not_mem_above stack List.mem_cons_self (same ▸ member)
  unfold close
  rw [stack, List.dropWhile_append_of_pos differ, List.takeWhile_append_of_pos differ]
  simp

include searching crossing

/-- Calls from `v` and from what lies above it lead nowhere else but into closed components. -/
theorem Following.successor (member : u ∈ above ++ [v]) (edge : w ∈ next u) :
    t.Reached w ∧ (w ∈ above ++ [v] ∨ t.Closed w) := by
  have still := following.searching
  have bound : t.Reached w ∧ (w ∈ s.stack → s.counter ≤ s.num w) := by
    rcases List.mem_append.1 member with isAbove | isSelf
    · have onStack : u ∈ t.stack := stack ▸ List.mem_append_left _ isAbove
      have off : u ∉ v :: path := by
        intro onPath
        refine following.not_mem_above stack (List.mem_cons.2 ?_) isAbove
        exact (List.mem_cons.1 onPath).imp_right (searching.onPath u)
      exact ⟨still.finished u (still.reached_of_mem onStack) off w edge, crossing u isAbove w edge⟩
    · rw [List.mem_singleton.1 isSelf] at edge
      exact (following.followed w edge).resolve_left List.not_mem_nil
  refine ⟨bound.1, ?_⟩
  rcases (still.reached w).1 bound.1 with onStack | closed
  · rw [stack, List.append_cons] at onStack
    rcases List.mem_append.1 onStack with isAbove | old
    · exact .inl isAbove
    · have less := searching.below w (searching.reached_of_mem old)
      exact absurd (bound.2 old) (Nat.not_le.2 less)
  · exact .inr closed

theorem Following.confined (chain : Reaches next v w) : w ∈ above ++ [v] ∨ t.Closed w := by
  induction chain with
  | refl => exact .inl (List.mem_append_right _ List.mem_cons_self)
  | @tail u w _ edge ih =>
    rcases ih with isAbove | closed
    · exact (following.successor searching stack crossing isAbove edge).2
    · exact .inr (following.searching.closed u closed w edge)

/-- `v` and what lies above it are a component. -/
theorem Following.component : IsComponent next (above ++ [v]) := by
  have still := following.searching
  have self : v ∈ t.stack := by
    rw [stack]
    exact List.mem_append_right _ List.mem_cons_self
  have nodup : (above ++ [v]).Nodup := by
    have order := still.order
    rw [stack, List.append_cons] at order
    exact (List.pairwise_append.1 order).1.imp fun {a b} less same =>
      Nat.ne_of_gt less (congrArg t.num same)
  refine ⟨nodup, v, List.mem_append_right _ List.mem_cons_self, fun w => ⟨fun member => ?_, ?_⟩⟩
  · have onStack : w ∈ t.stack := by
      rw [stack, List.append_cons]
      exact List.mem_append_left _ member
    have newer : t.num v ≤ t.num w := by
      rcases List.mem_append.1 member with isAbove | isSelf
      · exact Nat.le_of_lt (still.num_lt stack isAbove List.mem_cons_self)
      · exact Nat.le_of_eq (congrArg t.num (List.mem_singleton.1 isSelf).symm)
    refine ⟨still.newer v self w onStack newer, ?_⟩
    obtain ⟨u, onPath, -, back⟩ := still.older w onStack
    rcases List.mem_cons.1 onPath with rfl | onPath
    · exact back
    · have old := searching.onPath u onPath
      have older : t.num u ≤ t.num v :=
        Nat.le_of_lt (still.num_lt (stack.trans (List.append_cons ..))
          (List.mem_append_right _ List.mem_cons_self) old)
      exact back.trans (still.newer u (still.onPath u (List.mem_cons_of_mem _ onPath)) v self older)
  · rintro ⟨there, back⟩
    rcases following.confined searching stack crossing there with member | closed
    · exact member
    · exact absurd (still.closed_of_reaches closed back) (still.unclosed v self)

/-- All callees of `v` are followed, and none leads to an older word: `v` closes a component. -/
theorem Following.closes (new : ¬ s.Reached v) :
    Visited next words path s v s.counter (t.close v) := by
  have still := following.searching
  have component := following.component searching stack crossing
  have number : ∀ w ∈ s.stack, t.num w = s.num w := fun w => following.num_of_mem searching new
  have under : ∀ w ∈ s.stack, w ∈ t.stack := fun w member =>
    stack ▸ List.mem_append_right _ (List.mem_cons_of_mem _ member)
  have onStack : ∀ w, w ∈ t.stack ↔ w ∈ above ++ [v] ∨ w ∈ s.stack := fun w => by
    rw [stack, List.append_cons, List.mem_append]
  have closed : ∀ w, (t.close v).Closed w ↔ w ∈ above ++ [v] ∨ t.Closed w := fun w => by
    rw [following.close_eq stack]
    exact List.exists_mem_cons_iff ..
  have successor : ∀ u ∈ above ++ [v], ∀ w ∈ next u, t.Reached w ∧
      (w ∈ above ++ [v] ∨ t.Closed w) :=
    fun u member w => following.successor searching stack crossing member
  have kept : Extends t (t.close v) := ⟨Nat.le_refl _, fun _ => id, fun _ _ => rfl⟩
  have stack' : (t.close v).stack = s.stack := by rw [following.close_eq stack]
  refine ⟨?_, ((Extends.enter new).trans following.kept).trans kept,
    following.kept.reached v (reached_enter.2 (.inl rfl)), .inl rfl,
    [], stack', fun _ member => absurd member List.not_mem_nil⟩
  constructor
  case count => exact still.count
  case nodup => exact still.nodup
  case inside => exact still.inside
  case below => exact still.below
  case order =>
    have order := still.order
    rw [stack] at order
    rw [stack']
    exact (List.pairwise_cons.1 (List.pairwise_append.1 order).2.1).2
  case reached =>
    intro w
    rw [stack', closed]
    refine (still.reached w).trans ?_
    rw [onStack]
    tauto
  case unclosed =>
    intro w member isClosed
    rw [stack'] at member
    rcases (closed w).1 isClosed with isAbove | old
    · exact Nat.lt_irrefl _ (still.num_lt (stack.trans (List.append_cons ..)) isAbove member)
    · exact still.unclosed w (under w member) old
  case onPath =>
    rw [stack']
    exact searching.onPath
  case finished =>
    intro u reached off w edge
    by_cases same : u = v
    · exact (successor v (List.mem_append_right _ List.mem_cons_self) w (same ▸ edge)).1
    · exact still.finished u reached (fun member => (List.mem_cons.1 member).elim same off) w edge
  case newer =>
    rw [stack']
    exact fun a inA b inB less => still.newer a (under a inA) b (under b inB) less
  case older =>
    rw [stack']
    intro w member
    obtain ⟨u, onPath, lower, back⟩ := searching.older w member
    refine ⟨u, onPath, ?_, back⟩
    have same := number u (searching.onPath u onPath)
    have same' := number w member
    change t.num u ≤ t.num w
    omega
  case closed =>
    intro u isClosed w edge
    rw [closed] at isClosed ⊢
    rcases isClosed with isAbove | old
    · exact (successor u isAbove w edge).2
    · exact .inr (still.closed u old w edge)
  case component =>
    rw [following.close_eq stack]
    exact List.forall_mem_cons.2 ⟨component, still.component⟩
  case apart =>
    rw [following.close_eq stack]
    refine List.pairwise_cons.2 ⟨fun c found w member old => ?_, still.apart⟩
    exact still.unclosed w ((onStack w).2 (.inl member)) ⟨c, found, old⟩

end Close

/-- What the visits of its callees do carries over to the whole of `follow`. -/
theorem Following.follow {visit : EntryId → Search → Nat × Search}
    (searching : Searching next words path s) (new : ¬ s.Reached v)
    (visits : ∀ w t, w ∈ next v → s.counter < t.counter → Searching next words (v :: path) t →
      ¬ t.Reached w → Visited next words (v :: path) t w (visit w t).1 (visit w t).2)
    (following : Following next words path s v left low t) :
    Following next words path s v [] (Search.follow visit left low t).1
      (Search.follow visit left low t).2 := by
  induction left generalizing low t with
  | nil => exact following
  | cons w left ih =>
    unfold Search.follow
    cases found : t.index? w with
    | none =>
      have unreached := index?_eq_none.1 found
      have visited := visits w t (following.callees w List.mem_cons_self) following.counter_lt
        following.searching unreached
      exact ih (following.visited searching new unreached visited)
    | some i =>
      have seen := following.seen searching new (reached_of_index? found)
      rw [num_of_index? found] at seen
      exact ih seen

/-- A visit with enough fuel. -/
theorem Searching.visit (inside : ∀ v ∈ words, ∀ w ∈ next v, w ∈ words)
    (enough : words.length < fuel + s.counter) (searching : Searching next words path s)
    (word : v ∈ words) (new : ¬ s.Reached v) (called : ∀ u ∈ path, Reaches next u v) :
    Visited next words path s v (Search.visit next fuel v s).1 (Search.visit next fuel v s).2 := by
  induction fuel generalizing path s v with
  | zero =>
    have bound := searching.counter_lt word new
    omega
  | succ fuel ih =>
    have entered : Following next words path s v (next v) s.counter (s.enter v) := by
      refine ⟨searching.enter word new called, .refl _, .inl rfl, ⟨[], rfl, ?_⟩, fun _ => id,
        fun _ => .inl⟩
      exact fun _ member => absurd member List.not_mem_nil
    have visits : ∀ w t, w ∈ next v → s.counter < t.counter → Searching next words (v :: path) t →
        ¬ t.Reached w → Visited next words (v :: path) t w (Search.visit next fuel w t).1
          (Search.visit next fuel w t).2 := by
      intro w t edge later searching' unreached
      refine ih (by omega) searching' (inside v word w edge) unreached fun u onPath => ?_
      rcases List.mem_cons.1 onPath with rfl | onPath
      · exact .single edge
      · exact (called u onPath).tail edge
    have following := entered.follow searching new visits
    unfold Search.visit
    dsimp only
    generalize Search.follow (Search.visit next fuel) (next v) s.counter (s.enter v) =
      found at following ⊢
    split
    · rename_i same
      rw [same] at following ⊢
      obtain ⟨above, stack, crossing⟩ := following.grown
      exact following.closes searching stack crossing new
    · rename_i older
      exact following.stays searching new older

/-- Between two words of the list, the stack is empty. -/
theorem Searching.stack_eq_nil (searching : Searching next words [] s) : s.stack = [] := by
  refine List.eq_nil_iff_forall_not_mem.2 fun w member => ?_
  obtain ⟨v, onPath, -⟩ := searching.older w member
  cases onPath

theorem Searching.empty : Searching next words [] {} := by
  constructor <;> simp [Reached, Closed]

section Run

variable (inside : ∀ v ∈ words, ∀ w ∈ next v, w ∈ words) (enough : words.length < fuel)

include inside enough

theorem Searching.extend (searching : Searching next words [] s) (word : v ∈ words) :
    Searching next words [] (s.extend next fuel v) ∧ Extends s (s.extend next fuel v) ∧
      (s.extend next fuel v).Reached v := by
  unfold Search.extend
  split
  · rename_i found
    obtain ⟨i, found⟩ := Option.isSome_iff_exists.1 found
    exact ⟨searching, .refl s, reached_of_index? found⟩
  · rename_i unfound
    have new := index?_eq_none.1 (Option.not_isSome_iff_eq_none.1 unfound)
    have visited := searching.visit inside (Nat.lt_add_right _ enough) word new
      fun u onPath => absurd onPath List.not_mem_nil
    exact ⟨visited.searching, visited.kept, visited.reached⟩

theorem Searching.run (known : ∀ v ∈ left, v ∈ words) (searching : Searching next words [] s) :
    Searching next words [] (left.foldl (Search.extend next fuel) s) ∧
      Extends s (left.foldl (Search.extend next fuel) s) ∧
      ∀ v ∈ left, (left.foldl (Search.extend next fuel) s).Reached v := by
  induction left generalizing s with
  | nil => exact ⟨searching, .refl s, fun v member => absurd member List.not_mem_nil⟩
  | cons v left ih =>
    rw [List.foldl_cons]
    obtain ⟨extended, kept, first⟩ := searching.extend inside enough (known v List.mem_cons_self)
    obtain ⟨searched, kept', later⟩ :=
      ih (fun w member => known w (List.mem_cons_of_mem _ member)) extended
    refine ⟨searched, kept.trans kept', fun w member => ?_⟩
    rcases List.mem_cons.1 member with rfl | member
    · exact kept'.reached w first
    · exact later w member

/-- The search finds the component of every word, each once. -/
theorem run_components :
    (∀ c ∈ (run next fuel words).components, IsComponent next c ∧ ∀ v ∈ c, v ∈ words) ∧
      (∀ v ∈ words, ∃ c ∈ (run next fuel words).components, v ∈ c) ∧
      (run next fuel words).components.Pairwise fun c c' => ∀ v ∈ c, v ∉ c' := by
  obtain ⟨searched, -, reached⟩ := Searching.run inside enough (fun _ => id)
    (Searching.empty : Searching next words [] {})
  refine ⟨fun c found => ⟨searched.component c found, fun v member => ?_⟩, fun v word => ?_,
    searched.apart⟩
  · exact searched.inside v ((searched.reached v).2 (.inr ⟨c, found, member⟩))
  · have either := (searched.reached v).1 (reached v word)
    rw [searched.stack_eq_nil] at either
    exact either.resolve_left List.not_mem_nil

end Run

/-! ## Calls to older words -/

/-- Callees that were reached and are no older than the word itself leave its low as it is. -/
theorem follow_reached {visit : EntryId → Search → Nat × Search}
    (reached : ∀ w ∈ callees, s.Reached w ∧ (w ∈ s.stack → low ≤ s.num w)) :
    follow visit callees low s = (low, s) := by
  induction callees with
  | nil => rfl
  | cons w callees ih =>
    obtain ⟨⟨known, newer⟩, later⟩ := List.forall_mem_cons.1 reached
    rw [follow]
    cases found : s.index? w with
    | none => exact absurd known (index?_eq_none.1 found)
    | some i =>
      have same : (if s.stack.contains w then min low i else low) = low := by
        split
        · next member =>
          rw [← num_of_index? found]
          exact Nat.min_eq_left (newer (List.contains_iff_mem.1 member))
        · rfl
      dsimp only
      rw [same]
      exact ih later

/-- Words that call only themselves and words before them are components of their own, in order. -/
theorem run_older (nodup : words.Nodup)
    (older : ∀ front v back, words = front ++ v :: back → ∀ w ∈ next v, w ∈ front ∨ w = v) :
    (run next (fuel + 1) words).components = (words.map fun v => [v]).reverse := by
  suffices after : let s := run next (fuel + 1) words
      s.components = (words.map fun v => [v]).reverse ∧ s.stack = [] ∧
        ∀ v, s.Reached v ↔ v ∈ words from after.1
  induction words using List.reverseRecOn with
  | nil => simp [run, Reached]
  | append_singleton front v ih =>
    obtain ⟨components, empty, reached⟩ := ih (List.nodup_append.1 nodup).1
      fun front' u back split => older front' u (back ++ [v]) (by simp [split])
    have step : run next (fuel + 1) (front ++ [v]) =
        extend next (fuel + 1) (run next (fuel + 1) front) v := by
      rw [run, List.foldl_append]
      rfl
    rw [step]
    generalize run next (fuel + 1) front = s at components empty reached
    have new : ¬s.Reached v := fun known =>
      (List.nodup_append.1 nodup).2.2 v ((reached v).1 known) v List.mem_cons_self rfl
    -- Every callee was reached before; only `v` is on the stack, at its own number.
    have followed : follow (visit next fuel) (next v) s.counter (s.enter v) =
        (s.counter, s.enter v) := by
      refine follow_reached fun w edge => ⟨?_, fun member => ?_⟩
      · rcases older front v [] rfl w edge with before | same
        · exact reached_enter.2 (.inr ((reached w).2 before))
        · exact reached_enter.2 (.inl same)
      · rw [enter, empty, List.mem_singleton] at member
        exact member ▸ Nat.le_of_eq num_enter_self.symm
    have visited : extend next (fuel + 1) s v = (s.enter v).close v := by
      rw [extend, index?_eq_none.2 new, visit, followed]
      simp
    rw [visited]
    refine ⟨?_, ?_, fun w => ?_⟩
    · simp [close, enter, empty, components]
    · simp [close, enter, empty]
    · show (s.enter v).Reached w ↔ _
      rw [reached_enter, reached w, List.mem_append, List.mem_singleton, or_comm]

end ForthJit.Search
