import ForthJit.Compiler.Call

/-!
# Running words

A compiled word is entered directly.  Any other word is called by a temporary word, which is
forgotten afterwards whatever happens.
-/

namespace ForthJit.Compiler

/-- Enter compiled word `id`. -/
def enterWord (id : EntryId) (args : List Cell) : CompileM (List Cell) := do
  let _ ← entryAddress id
  let e ← entry id
  let c ← get
  let convention := c.settings.convention
  MonadExcept.ofExcept (convention.checkValues c.stackCells args.length e.outputs)
  let run ← onHeap CodeHeap.execute
  MonadExcept.ofExcept (convention.outcome e.outputs e.flags.throws run)

/-- Define the temporary word that calls `id`. -/
def wrapCall (callee : Entry) (id : EntryId) : CompileM EntryId := do
  let _ ← beginWord ("<" ++ callee.name ++ ">")
    { inputs := callee.inputs, outputs := callee.outputs, quiet := true }
  call id
  endWord

/-- Run word `id` on `args`. -/
def invoke (id : EntryId) (args : List Cell) : CompileM (List Cell) := do
  requireIdle
  let e ← entry id
  if e.flags.definitionOnly then
    throw (.definitionOnly e.name)
  if args.length ≠ e.inputs then
    throw (.arity (.call e.name e.inputs args.length))
  if e.compiled?.isSome then
    enterWord id args
  else
    let snapshot := (← get).snapshot
    try
      enterWord (← wrapCall e id) args
    finally
      modify (·.restore snapshot)

end ForthJit.Compiler
