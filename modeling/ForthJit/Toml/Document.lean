import ForthJit.Toml.Item
import ForthJit.Toml.Lexeme

/-!
# TOML documents

Documents with strings, integers, booleans, arrays and tables.  Values of other kinds, which no
setting has, are not read.
-/

namespace ForthJit.Toml

/-- An integer or a boolean. -/
def plain : Scan Item := fun text =>
  let lexeme := text.takeWhile isPlainChar
  let rest := text.dropWhile isPlainChar
  match String.ofList lexeme with
  | "true" => some (.boolean true, rest)
  | "false" => some (.boolean false, rest)
  | _ => (integer? lexeme).map fun value => (.integer value, rest)

mutual

/-- A value; `fuel` bounds the nesting and the number of elements. -/
def value : (fuel : Nat) → Scan Item
  | 0, _ => none
  | fuel + 1, text =>
    match text with
    | '"' :: _ | '\'' :: _ => (string text).map fun (s, rest) => (.string s, rest)
    | '[' :: rest => arrayBody fuel [] rest
    | '\x7b' :: rest =>
      match skipSpaces rest with
      | '\x7d' :: rest => some (.table .inline [], rest)
      | rest => inlineBody fuel [] rest
    | _ => plain text

/-- The rest of an array, after `items`.  A comma may follow the last element. -/
def arrayBody : (fuel : Nat) → (items : List Item) → Scan Item
  | 0, _, _ => none
  | fuel + 1, items, text =>
    match skipLines text.length text with
    | ']' :: rest => some (.array items, rest)
    | text => do
      let (item, rest) ← value fuel text
      let items := items ++ [item]
      match skipLines rest.length rest with
      | ',' :: rest => arrayBody fuel items rest
      | ']' :: rest => some (.array items, rest)
      | _ => none

/-- The rest of a table between braces, after `entries`; at least one more entry follows. -/
def inlineBody : (fuel : Nat) → (entries : Entries) → Scan Item
  | 0, _, _ => none
  | fuel + 1, entries, text => do
    let (path, rest) ← key text.length text
    match rest with
    | '=' :: rest =>
      let (item, rest) ← value fuel (skipSpaces rest)
      let entries ← entries.insert item path
      match skipSpaces rest with
      | ',' :: rest => inlineBody fuel entries (skipSpaces rest)
      | '\x7d' :: rest => some (.table .inline entries, rest)
      | _ => none
    | _ => none

end

/-- A header, after its first bracket: gives the entries of the document with the table it opens,
and the path it names. -/
def header (entries : Entries) (text : List Char) : Option (Entries × List String × List Char) := do
  let (double, text) := match text with
    | '[' :: rest => (true, rest)
    | rest => (false, rest)
  let (path, rest) ← key text.length (skipSpaces text)
  let last ← path.getLast?
  let rest ← match double, rest with
    | true, ']' :: ']' :: rest => some rest
    | false, ']' :: rest => some rest
    | _, _ => none
  let add := if double then Entries.appendTable last else Entries.openTable last
  let entries ← entries.underHeader add path.dropLast
  return (entries, path, rest)

/-- A key with its value, in the table that `path` leads to. -/
def assignment (entries : Entries) (path : List String) (text : List Char) :
    Option (Entries × List Char) := do
  let (keys, rest) ← key text.length text
  match rest with
  | '=' :: rest =>
    let text := skipSpaces rest
    let (item, rest) ← value (text.length + 1) text
    let entries ← entries.underHeader (fun inner => inner.insert item keys) path
    return (entries, rest)
  | _ => none

/-- The remaining lines of a document, whose last header named `path`; `fuel` bounds their
number. -/
def readLines : (fuel : Nat) → Entries → (path : List String) → List Char → Option Entries
  | 0, _, _, _ => none
  | fuel + 1, entries, path, text =>
    match skipSpaces text with
    | [] => some entries
    | '[' :: rest => do
      let (entries, path, rest) ← header entries rest
      readLines fuel entries path (← lineEnd? rest)
    | '#' :: rest => do readLines fuel entries path (← lineEnd? ('#' :: rest))
    | text =>
      match newline? text with
      | some rest => readLines fuel entries path rest
      | none => do
        let (entries, rest) ← assignment entries path text
        readLines fuel entries path (← lineEnd? rest)

/-- The text without a byte-order mark at its start. -/
def withoutMark : List Char → List Char
  | '\ufeff' :: rest => rest
  | text => text

/-- The top-level entries of a document. -/
def parse? (text : String) : Option Entries :=
  let chars := withoutMark text.toList
  readLines (chars.length + 1) [] [] chars

end ForthJit.Toml
