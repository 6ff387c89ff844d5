import ForthJit.Dictionary.Entry
import ForthJit.Settings

/-!
# Compilation errors
-/

namespace ForthJit

/-- A mismatch between the values that are there and the values that are needed. -/
inductive ArityError where
  /-- Fewer values than `callee` takes. -/
  | call (callee : String) (expected found : Nat)
  /-- More values than `callee` takes, where there must be no others. -/
  | extraValues (callee : String) (expected found : Nat)
  | exit (word : String) (expected found : Nat)
  | underflow (what : String)
  | overflow (limit : Nat)
  | signature (word what : String) (count limit : Nat)
  deriving DecidableEq

namespace ArityError

def message : ArityError → String
  | call callee expected found =>
    s!"'{callee}' takes {expected} argument(s) but {found} are available"
  | extraValues callee expected found =>
    s!"'{callee}' takes {expected} argument(s) but {found} values are pending; " ++
    "with the register convention the depth at a call must match exactly " ++
    "(store extra values in locals with `->`, or use the stack convention)"
  | exit word expected found =>
    s!"'{word}' must leave {expected} value(s) but {found} are available"
  | underflow what => s!"'{what}' needs a value but none is available"
  | overflow limit => s!"more than {limit} values pending"
  | signature word what count limit =>
    s!"'{word}' declares {count} {what}; at most {limit} are supported"

end ArityError

/-- A control structure that does not nest, or whose branches disagree. -/
inductive ControlError where
  | elseAlone
  | thenAlone
  | depthMismatch (first second : Nat)
  | openIf (word : String)
  | openElse (word : String)
  deriving DecidableEq

namespace ControlError

def message : ControlError → String
  | elseAlone => "'else' without 'if'"
  | thenAlone => "'then' without 'if'"
  | depthMismatch first second => s!"branches leave {first} and {second} values"
  | openIf word => s!"'{word}' ends inside an open 'if'"
  | openElse word => s!"'{word}' ends inside an open 'else'"

end ControlError

/-- Why the body of a word cannot be copied to a call site. -/
inductive InlineRefusal where
  | notCompiled | makesCalls | loadsLiterals | returnsEarly | branches | needsFrame | raises
  | trailingData
  deriving DecidableEq

namespace InlineRefusal

def reason : InlineRefusal → String
  | notCompiled => "it is not compiled by this JIT"
  | makesCalls => "it calls other words"
  | loadsLiterals => "it loads PC-relative literals"
  | returnsEarly => "it returns early"
  | branches => "it contains branches"
  | needsFrame => "it needs a stack frame"
  | raises => "it raises errors"
  | trailingData => "it carries trailing data"

end InlineRefusal

/-- What the compiler or its host cannot do. -/
inductive Unsupported where
  /-- Generated code runs on another kind of machine. -/
  | execution
  | callUnfinished (word : String)
  | epilogueOf (word kind : String)
  deriving DecidableEq

namespace Unsupported

def message : Unsupported → String
  | execution => "generated code targets aarch64; this host is x86_64"
  | callUnfinished word => s!"'{word}' is not finished yet; use 'recurse' to call it"
  | epilogueOf word kind => s!"'{word}' is {kind} and has no epilogue"

end Unsupported

inductive CompileError where
  | encode (e : EncodeError)
  | memory (e : MemoryError)
  | unknownWord (name : String)
  | arity (e : ArityError)
  /-- A chain of calls leads to a word that needs the interpreter. -/
  | dependency (path : List String)
  | noActiveDefinition
  | definitionInProgress (name : String)
  | uninitializedLocal (name : String)
  | control (e : ControlError)
  | notInlinable (name : String) (why : InlineRefusal)
  | unresolvedExternal (name : String)
  | definitionOnly (name : String)
  | unsupported (what : Unsupported)
  /-- A word ended with this error code, which is not zero. -/
  | raised (code : Cell)
  | settings (e : SettingsError)
  /-- A placeholder is left in a finished word. -/
  | unpatched (word : String) (tag index : Nat)
  /-- A word left another number of values on the data stack than it declares. -/
  | miscounted (found expected : Nat)
  deriving DecidableEq

namespace CompileError

def message : CompileError → String
  | encode e => e.message
  | memory e => e.message
  | unknownWord name => s!"unknown word '{name}'"
  | arity e => e.message
  | dependency path =>
    "call path reaches an interpreter-only word: " ++ String.intercalate " -> " path
  | noActiveDefinition => "no definition is being compiled"
  | definitionInProgress name => s!"definition of '{name}' is still in progress"
  | uninitializedLocal name => s!"local '{name}' is read before it is assigned"
  | control e => "unbalanced control flow: " ++ e.message
  | notInlinable name why => s!"'{name}' cannot be inlined: {why.reason}"
  | unresolvedExternal name => s!"cannot resolve external symbol '{name}'"
  | definitionOnly name => s!"'{name}' can only be used inside a definition"
  | unsupported what => "unsupported: " ++ what.message
  | raised code => s!"word raised error {code.toInt}"
  | settings e => "configuration error: " ++ e.message
  | unpatched word tag index =>
    s!"placeholder {tag} survived at instruction {index} of '{word}'"
  | miscounted found expected =>
    s!"word left {found} value(s) on the data stack, signature says {expected}"

end CompileError

end ForthJit
