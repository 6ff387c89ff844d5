import ForthJit.Settings
import ForthJit.Toml.Document

/-!
# Settings documents

Settings are read from a TOML document.  What it does not mention keeps its default, and what it
mentions must be a setting of the right kind.
-/

namespace ForthJit.Settings

/-- A number of things: an integer that is not negative. -/
def count? : Toml.Item → Option Nat
  | .integer (.ofNat n) => some n
  | _ => none

def boolean? : Toml.Item → Option Bool
  | .boolean b => some b
  | _ => none

/-- Whether an item holds nothing: an array or a table without elements. -/
def isVoid : Toml.Item → Bool
  | .array [] | .table _ [] | .tables [] => true
  | _ => false

/-- A convention by name, or as the one key of a table, with nothing in it. -/
def convention? : Toml.Item → Option Convention
  | .string name => Convention.ofName? name
  | .table _ [(name, item)] => if isVoid item then Convention.ofName? name else none
  | _ => none

/-- Settings with one more entry of a document. -/
def assign (s : Settings) (key : String) (item : Toml.Item) : Option Settings :=
  match key with
  | "convention" => return { s with convention := ← convention? item }
  | "code_capacity" => return { s with codeCapacity := ← count? item }
  | "constants_capacity" => return { s with constantsCapacity := ← count? item }
  | "data_capacity" => return { s with dataCapacity := ← count? item }
  | "address_table_slots" => return { s with addressTableSlots := ← count? item }
  | "data_stack_depth" => return { s with dataStackDepth := ← count? item }
  | "inline_threshold" => return { s with inlineThreshold := ← count? item }
  | "auto_inline" => return { s with autoInline := ← boolean? item }
  | "max_inline_chunks" => return { s with maxInlineChunks := ← count? item }
  | _ => none

/-- The settings that the entries of a document give. -/
def ofEntries? (entries : Toml.Entries) : Option Settings :=
  entries.foldlM (fun s (key, item) => s.assign key item) {}

/-- The settings in a document. -/
def ofText (text : String) : Except SettingsError Settings :=
  match (Toml.parse? text).bind ofEntries? with
  | some s => s.validate
  | none => .error .malformed

/-- The settings in the file at `path`, of which `contents` is what reading it gave. -/
def ofFile (path : String) (contents : Except String String) : Except SettingsError Settings :=
  match contents with
  | .ok text => ofText text
  | .error reason => .error (.unreadable path reason)

end ForthJit.Settings
