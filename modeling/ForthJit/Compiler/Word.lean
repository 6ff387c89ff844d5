import ForthJit.Compiler.Basic
import ForthJit.Compiler.Layout

/-!
# Beginning and ending definitions

A word exists from the start of its definition, so that it can call itself, but it is bound to its
name only when the definition ends.  A definition that fails to end leaves nothing behind.
-/

namespace ForthJit.Compiler

/-- Refuse more than `limit` values of either kind. -/
def checkCounts (name : String) (counts : List (String × Nat × Nat)) : CompileM Unit :=
  match counts.find? fun (_, count, limit) => limit < count with
  | some (what, count, limit) => throw (.arity (.signature name what count limit))
  | none => return

/-- Begin the definition of a word; gives its entry. -/
def beginWord (name : String) (signature : Signature) : CompileM EntryId := do
  requireIdle
  checkCounts name
    [("inputs", signature.inputs, maxValues), ("outputs", signature.outputs, maxValues)]
  let c ← get
  let snapshot := c.snapshot
  let start := c.heap.here
  try
    onHeap (CodeHeap.emitAll (List.replicate prologueSlots Placeholder.prologue.word))
  catch e =>
    modify fun c => { c with heap := c.heap.rewind snapshot.heap }
    throw e
  let code : CompiledWord :=
    { layout := { start, entry := start, body := start + prologueSlots }, leaf := true }
  let id ← createEntry
    { name, kind := .compiled code, inputs := signature.inputs, outputs := signature.outputs,
      flags := signature.flags }
  modify fun c => { c with definition := some { entry := id, name, signature, start, snapshot } }
  return id

/-- Lay out and publish `word`, the open definition. -/
def finishWord (word : Definition) : CompileM EntryId := do
  let id := word.entry
  let throws := word.raises || (((← get).dictionary.get? id).map (·.flags.throws)).getD false
  let finished ← emitting (Emit.finish throws)
  modify fun c => { c with definition := none }
  modifyDictionary fun d => d.update id fun e =>
    { e with kind := .compiled finished.code, clobbers := finished.clobbers }
  if throws then
    modifyDictionary (·.markThrows id)
  publish id
  let _ ← onHeap (CodeHeap.syncTo finished.code.layout.stop)
  return id

/-- End the open definition.  If that fails the definition is discarded. -/
def endWord : CompileM EntryId := do
  let word ← active
  try
    finishWord word
  catch e =>
    modify (·.restore word.snapshot)
    throw e

/-- Discard the open definition, if there is one. -/
def abandonWord (c : Compiler) : Compiler :=
  match c.definition with
  | some word => c.restore word.snapshot
  | none => c

/-! ## Addresses -/

/-- Where a word starts, published if need be; for other entries, the function's address. -/
def entryAddress (id : EntryId) : CompileM Nat := do
  let e ← entry id
  match e.kind with
  | .compiled code =>
    unless e.visible do
      throw (.definitionInProgress e.name)
    onHeap (CodeHeap.ensurePublished code.layout.stop)
    return (← get).heap.addressOf code.layout.entry
  | .intrinsic function => return function
  | .external _ address => return address

/-- Where the normal exit of a compiled word starts, published if need be. -/
def epilogueAddress (id : EntryId) : CompileM Nat := do
  let e ← entry id
  match e.kind with
  | .compiled code =>
    unless e.visible do
      throw (.definitionInProgress e.name)
    onHeap (CodeHeap.ensurePublished code.layout.stop)
    return (← get).heap.addressOf code.layout.epilogue
  | kind => throw (.unsupported (.epilogueOf e.name kind.name))

end ForthJit.Compiler
