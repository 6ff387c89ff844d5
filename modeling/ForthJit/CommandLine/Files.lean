/-!
# Files

The files that a run of the program finds, as a tree of directories, and what reading one of them
by its path gives.
-/

namespace ForthJit.CommandLine

/-- Why a file cannot be read. -/
inductive FileError where
  | notFound
  | notDirectory
  | isDirectory
  | nameTooLong
  /-- A path cannot hold the character that ends one. -/
  | strayEnd
  | notText
  deriving DecidableEq

def FileError.message : FileError → String
  | notFound => "No such file or directory (os error 2)"
  | notDirectory => "Not a directory (os error 20)"
  | isDirectory => "Is a directory (os error 21)"
  | nameTooLong => "File name too long (os error 36)"
  | strayEnd => "file name contained an unexpected NUL byte"
  | notText => "stream did not contain valid UTF-8"

/-- What reading a file gave: its text, or why there is none. -/
abbrev Contents := Except String String

inductive Node where
  | file (text : String)
  | directory (entries : List (String × Node))

/-- A directory with the directories around it. -/
structure Place where
  /-- What is in the directory. -/
  entries : List (String × Node)
  /-- The directories that hold it, the nearest first. -/
  around : List (List (String × Node)) := []

namespace Place

/-- Most bytes in the name of a file. -/
def maxName : Nat := 255

/-- Most bytes in a path. -/
def maxPath : Nat := 4095

/-- The directory above, which for the outermost one is itself. -/
def parent (p : Place) : Place :=
  match p.around with
  | [] => p
  | entries :: around => { entries, around }

/-- The outermost directory. -/
def root (p : Place) : Place := { entries := p.around.getLastD p.entries }

/-- What the names of a path lead to, one after the other. -/
def walk (p : Place) : (names : List String) → Except FileError Node
  | [] => .ok (.directory p.entries)
  | "." :: names => p.walk names
  | ".." :: names => p.parent.walk names
  | name :: names =>
    if maxName < name.utf8ByteSize then .error .nameTooLong
    else
      match p.entries.lookup name with
      | none => .error .notFound
      | some (.directory entries) =>
        { entries, around := p.entries :: p.around : Place }.walk names
      | some (.file text) => if names.isEmpty then .ok (.file text) else .error .notDirectory

/-- What `path` leads to.  A slash at its end stands for the directory itself. -/
def find (p : Place) (path : String) : Except FileError Node :=
  if path.contains '\x00' then .error .strayEnd
  else if path.isEmpty then .error .notFound
  else if maxPath < path.utf8ByteSize then .error .nameTooLong
  else
    let names := (path.splitOn "/").filter (· ≠ "")
    let names := if path.endsWith "/" then names ++ ["."] else names
    (if path.startsWith "/" then p.root else p).walk names

/-- What reading the file at `path` gives. -/
def read (p : Place) (path : String) : Contents :=
  match p.find path with
  | .ok (.file text) => .ok text
  | .ok (.directory _) => .error FileError.isDirectory.message
  | .error e => .error e.message

/-- Directories at the root of a system, and in them the files that every program may rely on: the
null device, and standard input, which holds `input`. -/
def system (input : String) : List (String × Node) :=
  ("dev", .directory [("null", .file ""), ("stdin", .file input)]) ::
    ["bin", "etc", "home", "lib", "opt", "proc", "root", "run", "sbin", "sys", "tmp", "usr",
      "var"].map fun name => (name, .directory [])

/-- A working directory that has just `files` in it, on a system where `input` is standard input. -/
def ofFiles (files : List (String × String)) (input : String) : Place where
  entries := files.map fun (name, text) => (name, .file text)
  around := [[], system input]

end Place

end ForthJit.CommandLine
