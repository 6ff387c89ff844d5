import ForthJit.Memory.CodeHeap

/-!
# Settings

Everything about the compiler that a user can choose, with the checks it must pass.
-/

namespace ForthJit

/-- Where values live between words. -/
inductive Convention where
  /-- In `x0` and up. -/
  | register
  /-- On a data stack of their own. -/
  | stack
  deriving DecidableEq

namespace Convention

def name : Convention → String
  | register => "register"
  | stack => "stack"

def ofName? : String → Option Convention
  | "register" => some register
  | "stack" => some stack
  | _ => none

end Convention

structure Settings where
  convention : Convention := .register
  /-- Instructions the code heap has room for. -/
  codeCapacity : Nat := 1048576
  /-- Bytes of constants. -/
  constantsCapacity : Nat := 65536
  /-- Bytes of data. -/
  dataCapacity : Nat := 65536
  addressTableSlots : Nat := 1024
  /-- Cells of the data stack, under the stack convention. -/
  dataStackDepth : Nat := 65536
  /-- Longest body, in instructions, that is inlined. -/
  inlineThreshold : Nat := 8
  autoInline : Bool := true
  /-- Longest move sequence for a constant; longer ones become literals. -/
  maxInlineChunks : Nat := 2
  deriving DecidableEq

/-- Why settings are refused. -/
inductive SettingsError where
  | chunksOutOfRange (count : Nat)
  | notPositive (setting : String)
  /-- The file could not be read. -/
  | unreadable (path reason : String)
  /-- The text is no settings document, or one with an unknown or ill-typed setting. -/
  | malformed
  deriving DecidableEq

namespace SettingsError

def message : SettingsError → String
  | chunksOutOfRange count => s!"max_inline_chunks must be between 1 and 4, got {count}"
  | notPositive setting => s!"{setting} must be positive"
  | unreadable path reason => s!"{path}: {reason}"
  | malformed => "malformed settings"

end SettingsError

namespace Settings

/-- The settings that must not be zero, in the order in which they are checked. -/
def capacities (s : Settings) : List (String × Nat) :=
  [("code_capacity", s.codeCapacity), ("constants_capacity", s.constantsCapacity),
    ("data_capacity", s.dataCapacity), ("address_table_slots", s.addressTableSlots),
    ("data_stack_depth", s.dataStackDepth)]

/-- The settings themselves if they are usable. -/
def validate (s : Settings) : Except SettingsError Settings :=
  if s.maxInlineChunks < 1 ∨ 4 < s.maxInlineChunks then
    .error (.chunksOutOfRange s.maxInlineChunks)
  else
    match s.capacities.find? fun capacity => capacity.2 == 0 with
    | some (setting, _) => .error (.notPositive setting)
    | none => .ok s

def layout (s : Settings) : HeapLayout :=
  { codeCapacity := s.codeCapacity, constantsCapacity := s.constantsCapacity,
    dataCapacity := s.dataCapacity, addressTableSlots := s.addressTableSlots }

end Settings

end ForthJit
