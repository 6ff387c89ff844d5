import ForthJit.Settings

/-!
# Arguments of the command line

Files to load, and options before, between or after them.  An option may be given once, and after
`--` everything is a file.
-/

namespace ForthJit.CommandLine

structure Options where
  /-- Files to load, in order. -/
  files : List String := []
  /-- Settings file. -/
  config : Option String := none
  /-- Convention that replaces the one in the settings. -/
  convention : Option Convention := none
  /-- Never inline calls. -/
  noInline : Bool := false
  /-- List every definition. -/
  dump : Bool := false
  /-- Do not read standard input. -/
  batch : Bool := false
  deriving DecidableEq

/-- What the arguments ask for. -/
inductive Request where
  | run (options : Options)
  | help
  | version
  | badUsage
  deriving DecidableEq

/-- Options that are there or not. -/
inductive Flag where
  | noInline | dump | batch
  deriving DecidableEq

/-- Options with a value. -/
inductive Valued where
  | config | convention
  deriving DecidableEq

/-- One argument by itself. -/
inductive Argument where
  | separator
  | flag (f : Flag)
  /-- The value may be part of the argument, after an equals sign; else it is the next argument. -/
  | valued (v : Valued) (attached : Option String)
  | help
  | version
  | file (path : String)
  | unknown
  deriving DecidableEq

namespace Argument

/-- An argument after its two dashes. -/
def ofLong (name : String) (attached : Option String) : Argument :=
  match name, attached with
  | "config", value => valued .config value
  | "convention", value => valued .convention value
  | "no-inline", none => flag .noInline
  | "dump", none => flag .dump
  | "batch", none => flag .batch
  | "help", none => help
  | "version", none => version
  | _, _ => unknown

/-- The text before the first equals sign, and the text after it if there is one. -/
def splitValue (text : List Char) : String × Option String :=
  let name := String.ofList (text.takeWhile (· != '='))
  match text.dropWhile (· != '=') with
  | [] => (name, none)
  | _ :: value => (name, some (String.ofList value))

def ofString (arg : String) : Argument :=
  match arg.toList with
  | ['-', '-'] => separator
  | '-' :: '-' :: rest =>
    let (name, attached) := splitValue rest
    ofLong name attached
  | '-' :: 'h' :: _ => help
  | '-' :: 'V' :: _ => version
  | '-' :: _ :: _ => unknown
  | _ => file arg

end Argument

namespace Options

/-- Add a file; its path must not be empty. -/
def addFile? (o : Options) (path : String) : Option Options :=
  if path.isEmpty then none else some { o with files := o.files ++ [path] }

/-- Set a flag that is not set yet. -/
def setFlag? (o : Options) : Flag → Option Options
  | .noInline => if o.noInline then none else some { o with noInline := true }
  | .dump => if o.dump then none else some { o with dump := true }
  | .batch => if o.batch then none else some { o with batch := true }

/-- Give an option that has no value yet a usable one. -/
def setValue? (o : Options) (v : Valued) (value : String) : Option Options :=
  match v with
  | .config =>
    if o.config.isSome || value.isEmpty then none else some { o with config := some value }
  | .convention =>
    if o.convention.isSome then none
    else (Convention.ofName? value).map fun c => { o with convention := some c }

/-- The settings to use, given those of the settings file. -/
def apply (o : Options) (s : Settings) : Settings :=
  { s with convention := o.convention.getD s.convention, autoInline := !o.noInline && s.autoInline }

end Options

/-- Whether an argument can be the value of the option before it: it is no option itself. -/
def isValue (arg : String) : Bool :=
  match Argument.ofString arg with
  | .file _ => true
  | _ => false

/-- The options that `args` add to `o`; the first help or version request, or mistake, decides. -/
def read (o : Options) : (args : List String) → Request
  | [] => .run o
  | arg :: rest =>
    match Argument.ofString arg with
    | .help => .help
    | .version => .version
    | .unknown => .badUsage
    | .separator =>
      match rest.foldlM Options.addFile? o with
      | some o => .run o
      | none => .badUsage
    | .file path =>
      match o.addFile? path with
      | some o => read o rest
      | none => .badUsage
    | .flag f =>
      match o.setFlag? f with
      | some o => read o rest
      | none => .badUsage
    | .valued v (some value) =>
      match o.setValue? v value with
      | some o => read o rest
      | none => .badUsage
    | .valued v none =>
      match rest with
      | [] => .badUsage
      | value :: rest =>
        match isValue value, o.setValue? v value with
        | true, some o => read o rest
        | _, _ => .badUsage

/-- What `args` ask for. -/
def parse (args : List String) : Request := read {} args

end ForthJit.CommandLine
