import ForthJit.Compiler.Basic
import ForthJit.Dictionary.CallGraph
import ForthJit.Machine.Listing

/-!
# Listings of words

Everything that is known about a word, as text: its flags, the positions in its code, every
instruction and the literals after them.
-/

namespace ForthJit.Compiler

/-- The notes that apply. -/
def applicable (notes : List (Bool × String)) : List String :=
  notes.filterMap fun (holds, note) => if holds then some note else none

/-- Notes in brackets, nothing if there are none. -/
def bracketed (notes : List String) : String :=
  if notes.isEmpty then "" else " [" ++ String.intercalate " " notes ++ "]"

def flagNotes (f : EntryFlags) : List String :=
  applicable [(f.throws, "throws"), (!f.autoTry, "no-auto-try"), (f.definitionOnly, "compile-only"),
    (f.interpreterOnly, "interpreter-only")]

def codeNotes (code : CompiledWord) (recursive : Bool) : List String :=
  applicable [(code.inlinable, "inlinable"), (code.leaf, "leaf"), (code.pcRelative, "pc-relative"),
    (recursive, "recursive")]

/-- Why there is no listing. -/
inductive ListingError where
  /-- There is no such entry. -/
  | unknown
  /-- The definition is open, so some of its positions are not known yet. -/
  | unfinished
  deriving DecidableEq

/-- The positions of a word other than its start. -/
def positions (l : WordLayout) : List (String × Nat) :=
  [("entry", l.entry), ("body", l.body), ("epilogue", l.epilogue), ("error", l.errorPath),
    ("ret", l.ret), ("data", l.data), ("literals", l.literals), ("end", l.stop)]

/-- The positions of a word, relative to its start. -/
def layoutLine (l : WordLayout) : String :=
  s!"  start {l.start}" ++
    String.join ((positions l).map fun (name, position) => s!" {name} +{position - l.start}") ++
    "\n"

/-- The labels at position `index`. -/
def labelLine (l : WordLayout) (index : Nat) : String :=
  let labels := [(l.entry, "entry"), (l.body, "body"), (l.epilogue, "epilogue"),
    (l.errorPath, "error"), (l.data, "data")]
  match labels.filterMap fun (position, name) => if position = index then some name else none with
  | [] => ""
  | names => "  " ++ String.intercalate "," names ++ ":\n"

/-- One instruction, with its address. -/
def instructionLine (heap : CodeHeap) (index : Nat) (w : InstrWord) : String :=
  s!"    {Hex.markedPadded 12 (heap.addressOf index)}  {Hex.padded 8 w.toNat}  " ++
    Listing.instruction w ++ "\n"

/-- The instructions of a word, up to its literals. -/
def codeLines (heap : CodeHeap) (l : WordLayout) : String :=
  let words := (heap.words l.start l.literals).toList.zipIdx l.start
  String.join (words.map fun (w, index) => labelLine l index ++ instructionLine heap index w)

/-- The literals of a word, with their addresses. -/
def literalLines (heap : CodeHeap) (l : WordLayout) : String :=
  if l.literals < l.stop then
    let bytes := (heap.words l.literals l.stop).toList.flatMap fun w => littleEndian 4 w.toNat
    let lines := (Listing.groups bytes).zipIdx.map fun (group, n) =>
      s!"    {Hex.markedPadded 12 (heap.addressOf l.literals + 2 * wordBytes * n)}  {group}\n"
    "  literals:\n" ++ String.join lines
  else
    ""

/-- The other words that call `id` and are called by it. -/
def partnersLine (d : Dictionary) (id : EntryId) : String :=
  let partners := (d.cycleOf id).filter (· ≠ id)
  match partners.filterMap fun other => (d.get? other).map (·.name) with
  | [] => ""
  | names => "  mutually recursive with " ++ String.intercalate " " names ++ "\n"

/-- Some position of the word is not known yet. -/
def isUnfinished (e : Entry) : Bool :=
  match e.kind with
  | .compiled code => (positions code.layout).any fun p => p.2 < code.layout.start
  | _ => false

/-- The listing of entry `e` at `id`. -/
def describeEntry (c : Compiler) (id : EntryId) (e : Entry) : String :=
  let heading :=
    s!"{e.name} ( {e.inputs} -- {e.outputs} ) {e.kind.name} {EntryId.describe id}\n"
  let notes := flagNotes e.flags
  heading ++ match e.kind with
  | .compiled code =>
    let notes := notes ++ codeNotes code (c.dictionary.isRecursive id)
    layoutLine code.layout ++
      s!"  frame {code.frameSize} bytes, clobbers {e.clobbers.describe}{bracketed notes}\n" ++
      partnersLine c.dictionary id ++ codeLines c.heap code.layout ++
      literalLines c.heap code.layout
  | .intrinsic function => s!"  native function at {Hex.marked function}{bracketed notes}\n"
  | .external slot address =>
    s!"  external at {Hex.marked address} through slot {Hex.marked slot}{bracketed notes}\n"

/-- The listing of entry `id`. -/
def listing (c : Compiler) (id : EntryId) : Except ListingError String :=
  match c.dictionary.get? id with
  | none => .error .unknown
  | some e => if isUnfinished e then .error .unfinished else .ok (c.describeEntry id e)

end ForthJit.Compiler
