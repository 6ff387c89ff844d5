import ForthJit.Compiler.Body

/-!
# Calls

A call is compiled as a branch or, where the body allows it, as a copy of the body.  Every compiled
call is recorded in the dictionary.
-/

namespace ForthJit.Compiler

/-- Entry `id`, which must not be the open definition; its code is published. -/
def prepareCallee (id : EntryId) : CompileM Entry := do
  let word ← active
  if id = word.entry then
    throw (.unsupported (.callUnfinished word.name))
  let e ← entry id
  match e.compiled? with
  | some code => onHeap (CodeHeap.ensurePublished code.layout.stop)
  | none => pure ()
  return e

/-- Record that the open definition calls `id`. -/
def recordCall (id : EntryId) : CompileM Unit := do
  let word ← active
  modifyDictionary fun d => d.addCall word.entry id

/-- Copy the body of `id` into the open definition. -/
def inlineCall (id : EntryId) : CompileM Unit := do
  let callee ← prepareCallee id
  match callee.compiled? with
  | none => throw (.notInlinable callee.name .notCompiled)
  | some code =>
    match code.inlineRefusal? callee.flags.throws with
    | some why => throw (.notInlinable callee.name why)
    | none =>
      let body := (← get).heap.words code.layout.body code.layout.epilogue
      emitting (Emit.inlineBody callee body.toList)
      recordCall id

/-- Call `id`, by a copy of its body if it has an inlinable one and that is wanted. -/
def call (id : EntryId) : CompileM Unit := do
  let callee ← prepareCallee id
  let inlinable := (callee.compiled?.map (·.inlinable)).getD false
  if inlinable && (← get).settings.autoInline then
    inlineCall id
  else
    emitting (Emit.call callee)
    recordCall id

/-- Push the local called `name`, or else call the word that has this name. -/
def word (name : String) : CompileM Unit := do
  let definition ← active
  if (definition.locals.find? name).isSome then
    getLocal name
  else
    call (← find name)

/-! ## Platform functions -/

/-- Largest number of values a platform function takes and leaves. -/
def externalLimits : Nat × Nat := (8, 1)

/-- Make the platform function at `address` callable as `name`. -/
def bindExternal (name : String) (inputs outputs address : Nat) : CompileM EntryId := do
  requireIdle
  checkCounts name
    [("inputs", inputs, externalLimits.1), ("outputs", outputs, externalLimits.2)]
  let slot ← onHeap (CodeHeap.bindSlot address)
  let id ← createEntry
    { name, kind := .external slot address, inputs, outputs, clobbers := .callerSaved }
  publish id
  return id

/-- Find the function called `name` and bind it. -/
def resolveExternal (name : String) (inputs outputs : Nat) : CompileM EntryId := do
  match (← get).heap.memory.platform.resolve? name with
  | none => throw (.unresolvedExternal name)
  | some address => bindExternal name inputs outputs address

end ForthJit.Compiler
