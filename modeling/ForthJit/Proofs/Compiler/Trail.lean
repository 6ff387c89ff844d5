import ForthJit.Proofs.Compiler.Trace

/-!
# Ways through a definition

The operations of a definition are followed along all ways at once: at a test one part is run and
the other passed over.  Each way goes with the locals that it has assigned (`Trail`).
-/

namespace ForthJit

/-! ## Code that is passed over -/

/-- Code is passed over: up to the next `else` (if `toElse`) or `then` that belongs to no `if` in
between, of which `nested` are still open. -/
structure Skip where
  toElse : Bool
  nested : Nat
  deriving DecidableEq

/-- What is passed over after an operation, if anything still is. -/
def Skip.next (s : Skip) (op : Operation) : Option Skip :=
  match op, s.nested with
  | .ifPart, n => some { s with nested := n + 1 }
  | .elsePart, 0 => if s.toElse then none else some s
  | .thenPart, 0 => none
  | .thenPart, n + 1 => some { s with nested := n }
  | _, _ => some s

/-- The local that an event has pushed, if any. -/
def Event.read? (event : Event) : Option String :=
  match event.op, event.callee with
  | .getLocal name, _ => some name
  | .word name, none => some name
  | _, _ => none

/-! ## Locals that are assigned -/

/-- One way through a definition, with the locals that it has assigned. -/
inductive Trail where
  | running (assigned : List String)
  | skipping (skip : Skip) (assigned : List String)
  | returned
  deriving DecidableEq

namespace Trail

/-- How a way may go on through an operation. -/
def next (op : Operation) : Trail → List Trail
  | running assigned =>
    match op with
    | .setLocal name => [running (name :: assigned)]
    | .ifPart => [running assigned, skipping ⟨true, 0⟩ assigned]
    | .elsePart => [skipping ⟨false, 0⟩ assigned]
    | .exit => [returned]
    | _ => [running assigned]
  | skipping skip assigned =>
    match skip.next op with
    | some skip => [skipping skip assigned]
    | none => [running assigned]
  | returned => [returned]

/-- Where the ways of `trails` may have got to after operations. -/
def onward (trails : List Trail) (events : List Event) : List Trail :=
  events.foldl (fun trails event => trails.flatMap (next event.op)) trails

end Trail

end ForthJit
