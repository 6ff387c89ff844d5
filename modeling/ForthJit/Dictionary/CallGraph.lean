import ForthJit.Dictionary.Basic
import ForthJit.Dictionary.Search

/-!
# Call graph

Two questions about the recorded calls: does a word reach one that needs the interpreter, and
which words take part in recursion.
-/

namespace ForthJit.Dictionary

/-! ## Words that need the interpreter -/

/-- Whether `id` needs the interpreter by itself, and not because a callee does. -/
def originatesInterpreter (d : Dictionary) (id : EntryId) (e : Entry) : Bool :=
  e.flags.interpreterOnly &&
    !e.callees.any fun c => c != id && ((d.get? c).map (·.flags.interpreterOnly)).getD false

/-- Breadth-first search over calls.  The queue holds entries with the callers that led to them,
nearest first; `seen` holds every entry that has been queued, so each is queued once. -/
def searchInterpreter (d : Dictionary) : (fuel : Nat) → (queue : List (EntryId × List EntryId)) →
    (seen : List EntryId) → Option (List EntryId)
  | 0, _, _ => none
  | _, [], _ => none
  | fuel + 1, (id, callers) :: queue, seen =>
    match d.get? id with
    | none => d.searchInterpreter fuel queue seen
    | some e =>
      if d.originatesInterpreter id e then
        some (id :: callers).reverse
      else
        let fresh := e.callees.filter fun c => !seen.contains c
        d.searchInterpreter fuel (queue ++ fresh.map (·, id :: callers)) (seen ++ fresh)

/-- A shortest chain of calls from `root` to a word that needs the interpreter by itself. -/
def interpreterPath? (d : Dictionary) (root : EntryId) : Option (List EntryId) :=
  d.searchInterpreter (d.size + 1) [(root, [])] [root]

/-- The names along `interpreterPath?`. -/
def interpreterNames? (d : Dictionary) (root : EntryId) : Option (List String) :=
  (d.interpreterPath? root).map fun path => path.filterMap fun id => (d.get? id).map (·.name)

/-! ## Recursion -/

def isCompiled (d : Dictionary) (id : EntryId) : Bool :=
  ((d.get? id).bind (·.compiled?)).isSome

/-- The compiled words that compiled word `id` calls. -/
def compiledCallees (d : Dictionary) (id : EntryId) : List EntryId :=
  match d.get? id with
  | none => []
  | some e => if d.isCompiled id then e.callees.filter d.isCompiled else []

def compiledWords (d : Dictionary) : List EntryId := (List.range d.size).filter d.isCompiled

/-- The groups of compiled words that call each other, directly or through others, in the order in
which they are found. -/
def components (d : Dictionary) : List (List EntryId) :=
  (Search.run d.compiledCallees (d.size + 1) d.compiledWords).components.reverse

/-- A component has several words, or one that calls itself. -/
def isCycle (d : Dictionary) : List EntryId → Bool
  | [] => false
  | [id] => (d.compiledCallees id).contains id
  | _ => true

/-- The components with recursion. -/
def cycles (d : Dictionary) : List (List EntryId) := d.components.filter d.isCycle

/-- Whether compiled word `id` calls itself, directly or through others. -/
def isRecursive (d : Dictionary) (id : EntryId) : Bool := d.cycles.any (·.contains id)

def ascending (ids : List EntryId) : List EntryId := ids.foldr insertAscending []

/-- The words that `id` calls and that call `id`, directly or through others, ascending. -/
def cycleOf (d : Dictionary) (id : EntryId) : List EntryId :=
  ascending ((d.cycles.find? (·.contains id)).getD [])

/-- The words that take part in recursion. -/
def recursiveWords (d : Dictionary) : List EntryId :=
  (List.range d.size).filter d.isRecursive

end ForthJit.Dictionary
