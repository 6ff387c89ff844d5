import ForthJit.Compiler.Control
import ForthJit.Compiler.Listing
import ForthJit.Compiler.Execution
import ForthJit.Interpreter.Error
import ForthJit.Interpreter.Number
import ForthJit.Interpreter.Token

/-!
# Interpreter

Tokens are compiled inside a definition and interpreted outside of one.  Outside, numbers go to a
stack of values and words run on it.

A form of several tokens may be spread over several sources, so what the next token completes is
part of the state.  Whenever no form is half-read, the compiler is noted as a checkpoint, and an
error takes it back to the last one.
-/

namespace ForthJit

/-- What a stack comment is the signature of. -/
inductive Header where
  | definition (name : String)
  | external (name : String)
  deriving DecidableEq

/-- What the next token completes. -/
inductive Pending where
  | nothing
  /-- After `:` -/
  | definitionName
  /-- After `extern` -/
  | externalName
  /-- After a name that needs a stack comment. -/
  | comment (target : Header)
  /-- Inside the stack comment of `target`. -/
  | signature (target : Header) (items : List String)
  /-- Inside a comment in parentheses. -/
  | ignored
  /-- After `->` -/
  | localName
  /-- After `variable` -/
  | variableName
  /-- After `see` -/
  | listedName
  deriving DecidableEq

structure Interpreter where
  compiler : Compiler
  /-- The newest value comes first. -/
  stack : List Cell := []
  pending : Pending := .nothing
  /-- The compiler as of the last token after which no form was half-read. -/
  checkpoint : Snapshot
  /-- List every finished definition. -/
  listing : Bool := false
  /-- What has been printed. -/
  output : String := ""

/-- Steps of the interpreter.  An error comes with the state it left. -/
abbrev InterpretM := EStateM InterpretError Interpreter

namespace Interpreter

variable {α : Type}

def create (compiler : Compiler) (listing : Bool) : Interpreter :=
  { compiler, checkpoint := compiler.snapshot, listing }

/-- A form is half-read or a definition is open. -/
def isContinuing (s : Interpreter) : Bool :=
  s.pending ≠ .nothing || s.compiler.definition.isSome

/-- Run an operation of the compiler. -/
def onCompiler (operation : CompileM α) : InterpretM α := fun s =>
  match s with
  | ⟨compiler, stack, pending, checkpoint, listing, output⟩ =>
    match operation compiler with
    | .ok a compiler => .ok a ⟨compiler, stack, pending, checkpoint, listing, output⟩
    | .error e compiler =>
      .error (.compile e) ⟨compiler, stack, pending, checkpoint, listing, output⟩

def await (pending : Pending) : InterpretM Unit := modify fun s => { s with pending }

def print (text : String) : InterpretM Unit := modify fun s => { s with output := s.output ++ text }

def push (value : Cell) : InterpretM Unit := modify fun s => { s with stack := value :: s.stack }

/-! ## Forms -/

/-- A token that may be a name: neither a number nor a parenthesis. -/
def nameAfter (form word : String) : InterpretM String :=
  if word = "(" ∨ word = ")" ∨ (Number.parse? word).isSome then
    throw (.missingName form)
  else
    return word

/-- The parts of a list between the elements equal to `divider`. -/
def splitAt (divider : String) : List String → List (List String)
  | [] => [[]]
  | item :: rest =>
    if item = divider then [] :: splitAt divider rest
    else match splitAt divider rest with
      | [] => [[item]]
      | part :: later => (item :: part) :: later

/-- How many items stand on each side of `--`. -/
def countItems (items : List String) : Except CommentError (Nat × Nat) :=
  match splitAt "--" items with
  | [inputs, outputs] => .ok (inputs.length, outputs.length)
  | _ :: _ :: _ => .error (.manyDividers items)
  | _ => .error (.noDivider items)

/-- A stack comment is complete. -/
def closeComment (target : Header) (items : List String) : InterpretM Unit :=
  match countItems items with
  | .error e => throw (.stackComment e)
  | .ok (inputs, outputs) => do
    match target with
    | .definition name =>
      let _ ← onCompiler (Compiler.beginWord name { inputs, outputs })
    | .external name =>
      let _ ← onCompiler (Compiler.resolveExternal name inputs outputs)

/-- Define a word that gives the address of a cell of its own. -/
def defineVariable (name : String) : InterpretM Unit :=
  onCompiler do
    let address ← Compiler.allocateCells 1
    let _ ← Compiler.beginWord name { inputs := 0, outputs := 1 }
    Compiler.literal (BitVec.ofNat 64 address)
    let _ ← Compiler.endWord

/-- The entry called `name`. -/
def lookup (name : String) : InterpretM EntryId := onCompiler (Compiler.find name)

/-- Print the listing of entry `id`. -/
def printListing (id : EntryId) : InterpretM Unit := do
  match (← get).compiler.listing id with
  | .ok text => print text
  | .error _ => return

/-! ## Words -/

/-- Run word `id` on the newest values of the stack, which it replaces if it succeeds. -/
def execute (word : String) (id : EntryId) : InterpretM Unit := do
  let s ← get
  let inputs := ((s.compiler.dictionary.get? id).map (·.inputs)).getD 0
  if s.stack.length < inputs then
    throw (.underflow word inputs s.stack.length)
  let results ← onCompiler (Compiler.invoke id (s.stack.take inputs).reverse)
  modify fun s => { s with stack := results.reverse ++ s.stack.drop inputs }

/-- The stack as text, oldest value first. -/
def stackText (stack : List Cell) : String :=
  let values := stack.reverse.map fun v => toString v.toInt
  s!"<{stack.length}> " ++ String.intercalate " " values

/-- A token inside a definition. -/
def compileToken (word : String) : InterpretM Unit := do
  match word with
  | ";" =>
    let id ← onCompiler Compiler.endWord
    if (← get).listing then
      printListing id
  | "->" => await .localName
  | "(" => await .ignored
  | "if" => onCompiler Compiler.ifPart
  | "else" => onCompiler Compiler.elsePart
  | "then" => onCompiler Compiler.thenPart
  | "recurse" => onCompiler Compiler.recurse
  | "return" => onCompiler Compiler.exit
  | "throw" => onCompiler Compiler.raise
  | ":" | "extern" | "variable" | "see" | "words" | ".s" => throw (.interpretOnly word)
  | _ =>
    match Number.parse? word with
    | some value => onCompiler (Compiler.literal value)
    | none => onCompiler (Compiler.word word)

/-- A token outside of a definition. -/
def interpretToken (word : String) : InterpretM Unit := do
  match word with
  | ":" => await .definitionName
  | "extern" => await .externalName
  | "variable" => await .variableName
  | "see" => await .listedName
  | "(" => await .ignored
  | "words" =>
    print (String.intercalate " " (← get).compiler.dictionary.names ++ "\n")
  | ".s" => print (stackText (← get).stack ++ "\n")
  | ";" | "->" | "if" | "else" | "then" | "recurse" | "return" | "throw" =>
    throw (.compileOnly word)
  | _ =>
    match Number.parse? word with
    | some value => push value
    | none => execute word (← lookup word)

/-! ## Tokens -/

/-- Take one token. -/
def take (word : String) : InterpretM Unit := do
  let pending := (← get).pending
  await .nothing
  match pending with
  | .nothing =>
    if (← get).compiler.definition.isSome then compileToken word else interpretToken word
  | .definitionName => await (.comment (.definition (← nameAfter ":" word)))
  | .externalName => await (.comment (.external (← nameAfter "extern" word)))
  | .comment target =>
    if word = "(" then await (.signature target [])
    else throw (.stackComment (.expectedOpen word))
  | .signature target items =>
    if word = ")" then closeComment target items
    else await (.signature target (items ++ [word]))
  | .ignored =>
    if word = ")" then return
    else await .ignored
  | .localName => onCompiler (Compiler.setLocal (← nameAfter "->" word))
  | .variableName => defineVariable (← nameAfter "variable" word)
  | .listedName => printListing (← lookup word)

/-- Note the compiler as a checkpoint unless a form is half-read. -/
def settle (s : Interpreter) : Interpreter :=
  if s.isContinuing then s else { s with checkpoint := s.compiler.snapshot }

/-- Take one token and settle. -/
def feed (word : String) : InterpretM Unit := do
  take word
  modify settle

/-- Feed tokens up to the first error. -/
def feedAll : List Token → EStateM Located Interpreter Unit
  | [] => return
  | token :: rest => fun s =>
    match feed token.text s with
    | .ok _ s => feedAll rest s
    | .error e s => .error { line := token.line, column := token.column, error := e } s

/-- Forget the half-read form, go back to the checkpoint and have the values of `stack` again. -/
def recover (stack : List Cell) (s : Interpreter) : Interpreter :=
  { s with pending := .nothing, stack, compiler := s.compiler.restore s.checkpoint }

/-- Interpret `source`, whose first line has number `firstLine`.  After an error no form is
half-read, and the stack holds what it held before. -/
def run (source : String) (firstLine : Nat) : EStateM Located Interpreter Unit := fun s =>
  let stack := s.stack
  match feedAll (Token.ofSource source firstLine) s with
  | .ok _ s => .ok () s
  | .error e s => .error e (s.recover stack)

end Interpreter

end ForthJit
