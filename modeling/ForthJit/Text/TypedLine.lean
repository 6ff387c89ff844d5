import ForthJit.Text.Grapheme.Cluster

/-!
# Typed lines

In a line that comes from a keyboard, a backspace takes back what was typed before it, a whole
cluster at a time.
-/

namespace ForthJit.Text

/-- A line while it is typed. -/
structure TypedLine where
  /-- What stands in the line, newest first. -/
  typed : List Char := []
  /-- How many bytes a backspace takes back, for each cluster, newest first. -/
  sizes : List UInt8 := []

namespace TypedLine

def byteSize (cluster : List Char) : Nat := (String.ofList cluster).utf8ByteSize

/-- Take back the characters that fit into `bytes`, the newest first. -/
def takeBack (bytes : Nat) : List Char → List Char
  | [] => []
  | c :: earlier =>
    if c.utf8Size ≤ bytes then takeBack (bytes - c.utf8Size) earlier else c :: earlier

/-- Type one cluster.  Its size is kept in eight bits, so of one with 256 bytes or more only the
remainder can be taken back. -/
def type (line : TypedLine) (cluster : List Char) : TypedLine :=
  if cluster = ['\x08'] then
    match line.sizes with
    | [] => line
    | size :: sizes => { typed := takeBack size.toNat line.typed, sizes }
  else
    { typed := cluster.reverse ++ line.typed
      sizes := UInt8.ofNat (byteSize cluster) :: line.sizes }

/-- What stands in a line after all of `text` was typed. -/
def edit (text : List Char) : List Char :=
  ((Grapheme.clusters text).foldl type {}).typed.reverse

end TypedLine

end ForthJit.Text
