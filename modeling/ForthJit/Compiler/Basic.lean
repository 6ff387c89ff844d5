import ForthJit.Compiler.Draft
import ForthJit.Dictionary.Basic

/-!
# Compiler state

The compiler holds its settings, the code heap, the dictionary and the open definition, if any.
`snapshot` and `restore` take the dictionary and the heap back to an earlier size together.

Operations run in `CompileM`, where a failed operation still says which state it left.
-/

namespace ForthJit

structure Compiler where
  settings : Settings
  heap : CodeHeap
  dictionary : Dictionary
  /-- Cells of the data stack, under the stack convention. -/
  stackCells : Nat
  definition : Option Definition
  /-- Position of the entry code. -/
  thunk : Nat
  /-- Names taken over so far, newest last. -/
  redefinitions : Array Redefinition

/-- Operations on a compiler.  An error comes with the compiler it left. -/
abbrev CompileM := EStateM CompileError Compiler

namespace Compiler

variable {α : Type}

/-- Run a heap operation. -/
def onHeap (operation : HeapM α) : CompileM α := fun c =>
  match c with
  | ⟨settings, heap, dictionary, stackCells, definition, thunk, redefinitions⟩ =>
    match operation heap with
    | .ok a heap =>
      .ok a ⟨settings, heap, dictionary, stackCells, definition, thunk, redefinitions⟩
    | .error e heap =>
      .error (.memory e) ⟨settings, heap, dictionary, stackCells, definition, thunk, redefinitions⟩

/-- Emit into the open definition. -/
def emitting (action : Emit α) : CompileM α := fun c =>
  match c with
  | ⟨settings, heap, dictionary, stackCells, none, thunk, redefinitions⟩ =>
    .error .noActiveDefinition
      ⟨settings, heap, dictionary, stackCells, none, thunk, redefinitions⟩
  | ⟨settings, heap, dictionary, stackCells, some word, thunk, redefinitions⟩ =>
    match action settings ⟨heap, word⟩ with
    | .ok a ⟨heap, word⟩ =>
      .ok a ⟨settings, heap, dictionary, stackCells, some word, thunk, redefinitions⟩
    | .error e ⟨heap, word⟩ =>
      .error e ⟨settings, heap, dictionary, stackCells, some word, thunk, redefinitions⟩

def modifyDictionary (f : Dictionary → Dictionary) : CompileM Unit :=
  modify fun c => { c with dictionary := f c.dictionary }

/-- The open definition. -/
def active : CompileM Definition := do
  match (← get).definition with
  | some word => return word
  | none => throw .noActiveDefinition

/-- Refuse while a definition is open. -/
def requireIdle : CompileM Unit := do
  match (← get).definition with
  | some word => throw (.definitionInProgress word.name)
  | none => return

/-- Entry `id`, which must exist. -/
def entry (id : EntryId) : CompileM Entry := do
  match (← get).dictionary.get? id with
  | some e => return e
  | none => throw (.unknownWord id.describe)

/-- The entry that `name` is bound to. -/
def find (name : String) : CompileM EntryId := do
  match (← get).dictionary.lookup? name with
  | some id => return id
  | none => throw (.unknownWord name)

/-- Add an entry; gives its position. -/
def createEntry (e : Entry) : CompileM EntryId := do
  let id := (← get).dictionary.size
  modifyDictionary (·.create e)
  return id

/-- Bind the name of entry `id` to it, noting a name that is taken over. -/
def publish (id : EntryId) : CompileM Unit :=
  modify fun c =>
    let redefinitions := match c.dictionary.redefinition? id with
      | some r => c.redefinitions.push r
      | none => c.redefinitions
    { c with dictionary := c.dictionary.publish id, redefinitions }

/-! ## Snapshots -/

def snapshot (c : Compiler) : Snapshot := { entries := c.dictionary.size, heap := c.heap.mark }

/-- Forget the open definition and everything made since `s`. -/
def restore (c : Compiler) (s : Snapshot) : Compiler :=
  { c with
    definition := none
    dictionary := c.dictionary.truncate s.entries
    heap := c.heap.rewind s.heap }

/-- The name of the open definition. -/
def compiling? (c : Compiler) : Option String := c.definition.map (·.name)

/-- Values pending in the open definition. -/
def depth? (c : Compiler) : Option Nat := c.definition.map (·.depth)

end Compiler

end ForthJit
