import ForthJit.Dictionary.Entry

/-!
# Dictionary

Entries are kept in the order of their creation.  An entry exists before it can be found: names
are bound separately, and the last binding of a name wins.

Every call is recorded on both sides.  Three flags flow from an entry to its callers: `throws`
into those that pass errors on, `definitionOnly` and `interpreterOnly` into all of them.
-/

namespace ForthJit

/-- Insert into an ascending list without repetitions. -/
def insertAscending (id : EntryId) : List EntryId → List EntryId
  | [] => [id]
  | i :: rest =>
    if id < i then id :: i :: rest
    else if id = i then i :: rest
    else i :: insertAscending id rest

theorem mem_insertAscending {id j : EntryId} {ids : List EntryId} :
    j ∈ insertAscending id ids ↔ j = id ∨ j ∈ ids := by
  induction ids with
  | nil => simp [insertAscending]
  | cons i rest ih =>
    unfold insertAscending
    split
    · simp
    · split
      · subst_vars; simp
      · simp [ih, or_left_comm]

structure Dictionary where
  entries : Array Entry := #[]
  /-- The binding of each bound name. -/
  bindings : List (String × EntryId) := []

/-- A name was taken over from an older entry. -/
structure Redefinition where
  name : String
  old : EntryId
  new : EntryId
  deriving DecidableEq

namespace Redefinition

def message (r : Redefinition) : String :=
  s!"redefining word name={r.name} old={r.old.describe} new={r.new.describe}"

end Redefinition

namespace Dictionary

def size (d : Dictionary) : Nat := d.entries.size

def get? (d : Dictionary) (id : EntryId) : Option Entry := d.entries[id]?

def lookup? (d : Dictionary) (name : String) : Option EntryId := d.bindings.lookup name

/-- Replace entry `id`, if there is one. -/
def update (d : Dictionary) (id : EntryId) (f : Entry → Entry) : Dictionary :=
  { d with entries := d.entries.modify id f }

/-- Add an entry without binding its name. -/
def create (d : Dictionary) (e : Entry) : Dictionary := { d with entries := d.entries.push e }

/-- The bindings with `name` bound to `id`. -/
def bind (bindings : List (String × EntryId)) (name : String) (id : EntryId) :
    List (String × EntryId) :=
  (name, id) :: bindings.filter fun b => b.1 != name

/-- Bind the name of entry `id` to it. -/
def publish (d : Dictionary) (id : EntryId) : Dictionary :=
  match d.get? id with
  | none => d
  | some e =>
    { entries := d.entries.modify id fun e => { e with visible := true }
      bindings := bind d.bindings e.name id }

/-- The binding that publishing `id` takes over. -/
def shadowed? (d : Dictionary) (id : EntryId) : Option EntryId :=
  (d.get? id).bind fun e => d.lookup? e.name

/-- What publishing `id` warns of. -/
def redefinition? (d : Dictionary) (id : EntryId) : Option Redefinition := do
  let e ← d.get? id
  let old ← d.lookup? e.name
  if e.flags.quiet then none else some { name := e.name, old, new := id }

/-- The bound names, oldest entry first. -/
def names (d : Dictionary) : List String :=
  let ids := (d.bindings.map (·.2)).mergeSort
  ids.filterMap fun id => (d.get? id).map (·.name)

/-! ## Flags and calls -/

/-- The flags of a caller once it has those of a callee. -/
def inherit (callee caller : EntryFlags) : EntryFlags :=
  { caller with
    throws := caller.throws || (callee.throws && caller.autoTry)
    definitionOnly := caller.definitionOnly || callee.definitionOnly
    interpreterOnly := caller.interpreterOnly || callee.interpreterOnly }

/-- Pass `flags` on to each of `callers`; gives those whose own flags changed. -/
def passOn (d : Dictionary) (flags : EntryFlags) : (callers : List EntryId) →
    Dictionary × List EntryId
  | [] => (d, [])
  | caller :: rest =>
    match d.get? caller with
    | none => d.passOn flags rest
    | some e =>
      let inherited := inherit flags e.flags
      if inherited = e.flags then
        d.passOn flags rest
      else
        let (d, changed) :=
          (d.update caller fun e => { e with flags := inherited }).passOn flags rest
        (d, caller :: changed)

/-- Pass the flags of the entries in `work` on to their callers, theirs and so on.  An entry comes
up again only after one of its three flags was set, which bounds the number of steps. -/
def spread (d : Dictionary) : (fuel : Nat) → (work : List EntryId) → Dictionary
  | 0, _ => d
  | _, [] => d
  | fuel + 1, id :: work =>
    match d.get? id with
    | none => d.spread fuel work
    | some e =>
      let (d, changed) := d.passOn e.flags e.callers
      d.spread fuel (changed ++ work)

/-- Let the flags of `id` flow to everything that calls it. -/
def propagate (d : Dictionary) (id : EntryId) : Dictionary :=
  d.spread (3 * d.size + 1) [id]

/-- Record that `caller` calls `callee`. -/
def addCall (d : Dictionary) (caller callee : EntryId) : Dictionary :=
  let d := d.update caller fun e => { e with callees := insertAscending callee e.callees }
  let d := d.update callee fun e => { e with callers := insertAscending caller e.callers }
  d.propagate callee

/-- Set flags of entry `id` and let them flow on, unless it has them already. -/
def mark (d : Dictionary) (id : EntryId) (has : EntryFlags → Bool) (set : EntryFlags → EntryFlags) :
    Dictionary :=
  match d.get? id with
  | none => d
  | some e =>
    if has e.flags then d
    else (d.update id fun e => { e with flags := set e.flags }).propagate id

def markThrows (d : Dictionary) (id : EntryId) : Dictionary :=
  d.mark id (·.throws) fun f => { f with throws := true }

def markInterpreterOnly (d : Dictionary) (id : EntryId) : Dictionary :=
  d.mark id (·.interpreterOnly) fun f => { f with interpreterOnly := true }

/-! ## Forgetting -/

/-- The bindings that the visible entries give, the newest entry of each name. -/
def bindingsOf (entries : List Entry) : List (String × EntryId) :=
  entries.zipIdx.foldl
    (fun bindings (e, id) => if e.visible then bind bindings e.name id else bindings) []

/-- Forget the entries from position `length` on, with the calls to and from them. -/
def truncate (d : Dictionary) (length : Nat) : Dictionary :=
  if d.size ≤ length then d
  else
    let entries := (d.entries.shrink length).map fun e =>
      { e with callers := e.callers.filter (· < length), callees := e.callees.filter (· < length) }
    { entries, bindings := bindingsOf entries.toList }

end Dictionary

end ForthJit
