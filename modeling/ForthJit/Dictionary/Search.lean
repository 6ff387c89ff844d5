import ForthJit.Dictionary.Entry

/-!
# Strongly connected components

A depth-first search numbers the words in the order in which it reaches them.  A word's *low* is the
least number that was found below it among the words not yet in a component.  A word whose low is
its own number closes a component: it and every word above it on the stack.
-/

namespace ForthJit

structure Search where
  counter : Nat := 0
  /-- The number of each word that was reached. -/
  indices : List (EntryId × Nat) := []
  /-- The words that were reached and are in no component yet, newest first. -/
  stack : List EntryId := []
  components : List (List EntryId) := []

namespace Search

def index? (s : Search) (v : EntryId) : Option Nat := s.indices.lookup v

/-- Number `v` and put it on the stack. -/
def enter (s : Search) (v : EntryId) : Search :=
  { s with
    counter := s.counter + 1
    indices := (v, s.counter) :: s.indices
    stack := v :: s.stack }

/-- Take `v` and what lies above it off the stack, as a component. -/
def close (s : Search) (v : EntryId) : Search :=
  { s with
    stack := (s.stack.dropWhile (· != v)).tail
    components := (s.stack.takeWhile (· != v) ++ [v]) :: s.components }

/-- Lower `low` to what the words in `callees` lead to, and visit those that were not reached. -/
def follow (visit : EntryId → Search → Nat × Search) : (callees : List EntryId) → (low : Nat) →
    Search → Nat × Search
  | [], low, s => (low, s)
  | w :: callees, low, s =>
    match s.index? w with
    | none =>
      let found := visit w s
      follow visit callees (min low found.1) found.2
    | some i => follow visit callees (if s.stack.contains w then min low i else low) s

/-- Search from `v`, which was not reached before; gives its low. -/
def visit (next : EntryId → List EntryId) : (fuel : Nat) → EntryId → Search → Nat × Search
  | 0, _, s => (s.counter, s)
  | fuel + 1, v, s =>
    let (low, s') := follow (visit next fuel) (next v) s.counter (s.enter v)
    (low, if low = s.counter then s'.close v else s')

/-- Search from `v` if it was not reached before. -/
def extend (next : EntryId → List EntryId) (fuel : Nat) (s : Search) (v : EntryId) : Search :=
  if (s.index? v).isSome then s else (visit next fuel v s).2

/-- Search from each of `words`. -/
def run (next : EntryId → List EntryId) (fuel : Nat) (words : List EntryId) : Search :=
  words.foldl (extend next fuel) {}

end Search

end ForthJit
