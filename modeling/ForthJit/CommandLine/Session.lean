import ForthJit.CommandLine.Arguments
import ForthJit.CommandLine.Files
import ForthJit.Compiler.Create
import ForthJit.Interpreter.Basic
import ForthJit.Settings.Document
import ForthJit.Text.TypedLine

/-!
# Sessions

A session loads files and then, unless it is a batch, interprets standard input line by line.
Reading is left to the caller: what comes in here is what reading a file gave.
-/

namespace ForthJit.CommandLine

def version : String := "0.4.0"

def versionText : String := "kiln " ++ version ++ "\n"

def helpText : String :=
  "Interactive AArch64 Forth JIT\n\n" ++
  "Usage: kiln [OPTIONS] [FILES]...\n\n" ++
  "Arguments:\n" ++
  "  [FILES]...  Source files to load before the prompt\n\n" ++
  "Options:\n" ++
  "      --config <CONFIG>          JIT configuration file (TOML)\n" ++
  "      --convention <CONVENTION>  Calling convention between words " ++
  "(overrides the config file) [possible values: register, stack]\n" ++
  "      --no-inline                Never inline calls automatically\n" ++
  "      --dump                     Print a listing after each definition\n" ++
  "      --batch                    Exit after loading the files instead of starting " ++
  "the prompt\n" ++
  "  -h, --help                     Print help\n" ++
  "  -V, --version                  Print version\n"

/-- How a program ended, with all it wrote. -/
structure Report where
  exit : Nat
  stdout : String := ""
  stderr : String := ""
  deriving DecidableEq

structure Session where
  interpreter : Interpreter
  /-- What has been written to standard error. -/
  errors : String := ""
  /-- Lines of standard input so far. -/
  lines : Nat := 0

namespace Session

def complain (text : String) (s : Session) : Session :=
  { s with errors := s.errors ++ text ++ "\n" }

def print (text : String) (s : Session) : Session :=
  { s with interpreter := { s.interpreter with output := s.interpreter.output ++ text } }

/-- Interpret `source`; gives the error if there is one. -/
def interpret (source : String) (firstLine : Nat) (s : Session) : Except Located Unit × Session :=
  match s with
  | ⟨interpreter, errors, lines⟩ =>
    match interpreter.run source firstLine with
    | .ok _ interpreter => (.ok (), ⟨interpreter, errors, lines⟩)
    | .error e interpreter => (.error e, ⟨interpreter, errors, lines⟩)

/-- The settings for `o`, of whose settings file `config` is what reading it gave. -/
def settings (o : Options) (config : Contents) : Except CompileError Settings :=
  match o.config with
  | none => .ok (o.apply {})
  | some path => ((Settings.ofFile path config).map o.apply).mapError .settings

/-- Start a session on `host`; gives the complaint if that fails. -/
def start (host : Host) (o : Options) (config : Contents) : Except String Session := do
  let s ← (settings o config).mapError fun e => "Error: " ++ e.message
  let compiler ← (Compiler.create host s).mapError fun e => "Error starting JIT: " ++ e.message
  return { interpreter := Interpreter.create compiler o.dump }

/-- Interpret a whole file; gives whether it succeeded. -/
def load (path : String) (contents : Contents) (s : Session) : Bool × Session :=
  match contents with
  | .error reason => (false, s.complain ("Error reading " ++ path ++ ": " ++ reason))
  | .ok source =>
    match s.interpret source 1 with
    | (.error e, s) => (false, s.complain (path ++ ":" ++ e.message))
    | (.ok _, s) =>
      if s.interpreter.isContinuing then
        (false, s.complain (path ++ ": unterminated definition at end of file"))
      else
        (true, s)

/-- Greet at the start of standard input. -/
def greet (s : Session) : Session :=
  let convention := s.interpreter.compiler.settings.convention.name
  s.print s!"kiln {version} ({convention} convention). Ctrl-D to exit.\n"

/-- Interpret one line of standard input, with its backspaces carried out. -/
def line (text : List Char) (s : Session) : Session :=
  let s := { s with lines := s.lines + 1 }
  let text := Text.TypedLine.edit text
  if text.all Text.isBlank then s
  else
    match s.interpret (String.ofList text) s.lines with
    | (.error e, s) => s.complain ("Error at " ++ e.message)
    | (.ok _, s) => if s.interpreter.isContinuing then s else s.print " ok\n"

/-- Load files in order; under `batch` the first failure ends it.  Gives whether to go on. -/
def loadAll (batch : Bool) (contents : String → Contents) : List String → Session → Bool × Session
  | [], s => (true, s)
  | path :: rest, s =>
    match s.load path (contents path) with
    | (ok, s) => if !ok && batch then (false, s) else loadAll batch contents rest s

def report (exit : Nat) (s : Session) : Report :=
  { exit, stdout := s.interpreter.output, stderr := s.errors }

end Session

/-- A whole run of the program on `host`, with files as `contents` says and `input` as standard
input. -/
def run (host : Host) (args : List String) (contents : String → Contents) (input : String) :
    Report :=
  match parse args with
  | .badUsage => { exit := 2 }
  | .help => { exit := 0, stdout := helpText }
  | .version => { exit := 0, stdout := versionText }
  | .run o =>
    match Session.start host o (contents (o.config.getD "")) with
    | .error complaint => { exit := 1, stderr := complaint ++ "\n" }
    | .ok s =>
      match s.loadAll o.batch contents o.files with
      | (false, s) => s.report 1
      | (true, s) =>
        if o.batch then s.report 0
        else ((Text.lines input.toList).foldl (fun s text => s.line text) s.greet).report 0

end ForthJit.CommandLine
