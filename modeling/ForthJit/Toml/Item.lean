/-!
# Items of a TOML document

A document is a tree of tables.  Whether a table may still be added to depends on how it came to be,
so that is part of the tree.
-/

namespace ForthJit.Toml

/-- How a table came to be. -/
inductive TableForm where
  /-- Written between braces. -/
  | inline
  /-- Named by a header of its own. -/
  | header
  /-- Named only as the beginning of a longer header. -/
  | implied
  /-- Named as the beginning of a dotted key. -/
  | dotted
  deriving DecidableEq

inductive Item where
  | string (text : String)
  | integer (value : Int)
  | boolean (value : Bool)
  | array (items : List Item)
  | table (form : TableForm) (entries : List (String × Item))
  /-- Tables named by double-bracket headers, oldest first. -/
  | tables (items : List (List (String × Item)))

/-- The contents of a table, in the order in which its keys were written. -/
abbrev Entries := List (String × Item)

namespace Entries

/-- Put `item` in the place of what is at `key`, or at the end. -/
def put (key : String) (item : Item) : Entries → Entries
  | [] => [(key, item)]
  | (k, old) :: rest => if k = key then (k, item) :: rest else (k, old) :: put key item rest

/-- Change the table that the header keys in `path` lead to, with tables implied on the way. -/
def underHeader (f : Entries → Option Entries) : (path : List String) → Entries → Option Entries
  | [], entries => f entries
  | key :: path, entries =>
    match entries.lookup key with
    | none => return entries.put key (.table .implied (← underHeader f path []))
    | some (.table .inline _) => none
    | some (.table form inner) => return entries.put key (.table form (← underHeader f path inner))
    | some (.tables items) => do
      let last ← items.getLast?
      return entries.put key (.tables (items.dropLast ++ [← underHeader f path last]))
    | some _ => none

/-- Add `item` under a key that may be dotted.  A table that has a header, or that is written
between braces, is closed to dotted keys; so is an implied one as the last step. -/
def insert (item : Item) : (path : List String) → Entries → Option Entries
  | [], _ => none
  | [key], entries =>
    match entries.lookup key with
    | none => some (entries.put key item)
    | some _ => none
  | key :: next :: path, entries =>
    match entries.lookup key with
    | none => return entries.put key (.table .dotted (← insert item (next :: path) []))
    | some (.table .dotted inner) =>
      return entries.put key (.table .dotted (← insert item (next :: path) inner))
    | some (.table .implied inner) =>
      if path.isEmpty then none
      else return entries.put key (.table .implied (← insert item (next :: path) inner))
    | some _ => none

/-- Open the table of a single-bracket header.  An implied table may be opened once. -/
def openTable (key : String) (entries : Entries) : Option Entries :=
  match entries.lookup key with
  | none => some (entries.put key (.table .header []))
  | some (.table .implied inner) => some (entries.put key (.table .header inner))
  | some _ => none

/-- Open one more table of a double-bracket header. -/
def appendTable (key : String) (entries : Entries) : Option Entries :=
  match entries.lookup key with
  | none => some (entries.put key (.tables [[]]))
  | some (.tables items) => some (entries.put key (.tables (items ++ [[]])))
  | some _ => none

end Entries

end ForthJit.Toml
