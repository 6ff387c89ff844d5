import ForthJit.CommandLine.Session

/-!
# The program

Reads files and standard input, and writes what the session has to say as soon as it is said.
-/

namespace ForthJit.CommandLine

/-- The reason for a failure to read a file. -/
def reasonOf (e : IO.Error) : String :=
  match e with
  | .noFileOrDirectory .. => FileError.notFound.message
  | .inappropriateType _ 21 _ => FileError.isDirectory.message
  | .inappropriateType .. => FileError.notDirectory.message
  | .invalidArgument _ _ "name too long" => FileError.nameTooLong.message
  | e => toString e

/-- What reading the file at `path` gives. -/
def readContents (path : String) : IO Contents := do
  try
    match String.fromUTF8? (← IO.FS.readBinFile path) with
    | some text => return .ok text
    | none => return .error FileError.notText.message
  catch e => return .error (reasonOf e)

/-- Write out what the session holds back. -/
def flush (s : Session) : IO Session := do
  let stdout ← IO.getStdout
  let stderr ← IO.getStderr
  stdout.putStr s.interpreter.output
  stdout.flush
  stderr.putStr s.errors
  stderr.flush
  return { s with interpreter := { s.interpreter with output := "" }, errors := "" }

/-- Load files in order; gives whether to go on. -/
def loadFiles (batch : Bool) : List String → Session → IO (Bool × Session)
  | [], s => return (true, s)
  | path :: rest, s => do
    let (ok, s) := s.load path (← readContents path)
    let s ← flush s
    if !ok && batch then return (false, s) else loadFiles batch rest s

/-- Interpret standard input to its end. -/
partial def interact (stdin : IO.FS.Stream) (s : Session) : IO Unit := do
  let text ← stdin.getLine
  unless text.isEmpty do
    let line := (Text.lines text.toList).headD []
    interact stdin (← flush (s.line line))

/-- The program knows no functions by name, and cannot run what it compiles. -/
def ownHost : Host := { platform := .spaced }

/-- Run a session and give its exit code. -/
def session (o : Options) : IO UInt32 := do
  let config ← match o.config with
    | some path => readContents path
    | none => pure (.ok "")
  match Session.start ownHost o config with
  | .error complaint =>
    IO.eprintln complaint
    return 1
  | .ok s =>
    match ← loadFiles o.batch o.files s with
    | (false, _) => return 1
    | (true, s) =>
      unless o.batch do
        let s ← flush s.greet
        interact (← IO.getStdin) s
      return 0

/-- Do what the arguments ask for. -/
def answer (args : List String) : IO UInt32 := do
  match parse args with
  | .badUsage =>
    IO.eprint "Usage: kiln [OPTIONS] [FILES]...\n"
    return 2
  | .help =>
    IO.print helpText
    return 0
  | .version =>
    IO.print versionText
    return 0
  | .run o => session o

end ForthJit.CommandLine

def main (args : List String) : IO UInt32 := ForthJit.CommandLine.answer args

