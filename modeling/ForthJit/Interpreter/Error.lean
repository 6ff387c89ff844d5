import ForthJit.Compiler.Error

/-!
# Interpreter errors
-/

namespace ForthJit

/-- What is wrong with a stack comment. -/
inductive CommentError where
  | expectedOpen (found : String)
  /-- There is no `--`. -/
  | noDivider (items : List String)
  /-- There is more than one `--`. -/
  | manyDividers (items : List String)
  deriving DecidableEq

namespace CommentError

def message : CommentError → String
  | expectedOpen found => s!"expected '(' but found '{found}'"
  | noDivider items => "missing '--' in ( " ++ String.intercalate " " items ++ " )"
  | manyDividers items => "more than one '--' in ( " ++ String.intercalate " " items ++ " )"

end CommentError

inductive InterpretError where
  | compile (e : CompileError)
  /-- Fewer values on the stack than `word` takes. -/
  | underflow (word : String) (needed available : Nat)
  | compileOnly (word : String)
  | interpretOnly (word : String)
  | stackComment (e : CommentError)
  | missingName (after : String)
  deriving DecidableEq

namespace InterpretError

def message : InterpretError → String
  | compile e => e.message
  | underflow word needed available =>
    s!"stack underflow: '{word}' needs {needed} value(s), {available} available"
  | compileOnly word => s!"'{word}' is only valid inside a definition"
  | interpretOnly word => s!"'{word}' cannot be used inside a definition"
  | stackComment e => "malformed stack comment: " ++ e.message
  | missingName after => s!"expected a name after '{after}'"

end InterpretError

/-- An error at the token that caused it. -/
structure Located where
  line : Nat
  column : Nat
  error : InterpretError
  deriving DecidableEq

namespace Located

def message (e : Located) : String := s!"{e.line}:{e.column}: {e.error.message}"

end Located

end ForthJit
