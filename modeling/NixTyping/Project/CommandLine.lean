import NixTyping.Project.Check
import NixTyping.Project.Config
/-!
The command line: its arguments, and what a run prints.
-/

namespace NixTyping

/-! ## Single arguments -/

/-- A flag that takes a value. -/
inductive ValueFlag where
  | config | prelude | limit

def ValueFlag.ofName? (name : String) : Option ValueFlag :=
  match name with
  | "config" => some .config
  | "prelude" => some .prelude
  | "max-solutions" => some .limit
  | _ => none

/-- What an argument looks like. -/
inductive Argument where
  | plain
  | endOfFlags
  | version
  | help
  | noBuiltins
  /-- A flag whose value is the next argument. -/
  | flag (f : ValueFlag)
  /-- A flag with its value behind an equals sign. -/
  | assigned (f : ValueFlag) (value : String)
  | unknown

namespace Argument

/-- A flag by its long name. -/
def ofName (name : String) : Argument :=
  match name with
  | "version" => .version
  | "help" => .help
  | "no-builtins" => .noBuiltins
  | _ => ((ValueFlag.ofName? name).map .flag).getD .unknown

/-- A text behind two dashes: a name, and perhaps a value. -/
def ofLong (cs : List Char) : Argument :=
  let name := cs.takeWhile (· ≠ '=')
  match cs.drop name.length with
  | [] => ofName (String.ofList name)
  | _ :: value =>
    ((ValueFlag.ofName? (String.ofList name)).map (.assigned · (String.ofList value))).getD .unknown

/-- A dash alone is a plain argument. -/
def ofText (arg : String) : Argument :=
  match arg.toList with
  | ['-', '-'] => .endOfFlags
  | '-' :: '-' :: cs => ofLong cs
  | '-' :: 'V' :: _ => .version
  | '-' :: 'h' :: _ => .help
  | '-' :: _ :: _ => .unknown
  | _ => .plain

/-- Whether an argument can be the value of the flag before it. -/
def isValue (arg : String) : Bool :=
  match ofText arg with
  | .plain => true
  | _ => false

end Argument

/-! ## Command lines -/

structure Arguments where
  file : Option String := none
  config : Option String := none
  preludes : List String := []
  noBuiltins : Bool := false
  limit : Option Nat := none

/-- What a command line asks for. -/
inductive Request where
  | version
  | help
  | check (file : String) (args : Arguments)

namespace Arguments

/-- The number of schemes asked for: at least one, in decimal digits, in 64 bits. -/
def limit? (text : String) : Option Nat :=
  let ds := match text.toList with
    | '+' :: cs => cs
    | cs => cs
  let n := Toml.Scalar.natInBase 10 ds
  if !ds.isEmpty && ds.all Toml.Scalar.isDecimal && 0 < n && n ≤ 0xffffffffffffffff then some n else none

/-- A path is a text that is not empty. -/
def path? (text : String) : Option String := if text.isEmpty then none else some text

/-- Only preludes may be given more than once. -/
def setValue (a : Arguments) (flag : ValueFlag) (value : String) : Option Arguments :=
  match flag with
  | .config => if a.config.isSome then none else (path? value).map fun p => { a with config := some p }
  | .prelude => (path? value).map fun p => { a with preludes := a.preludes ++ [p] }
  | .limit => if a.limit.isSome then none else (limit? value).map fun n => { a with limit := some n }

def setFile (a : Arguments) (value : String) : Option Arguments :=
  if a.file.isSome then none else (path? value).map fun p => { a with file := some p }

/-- The end of the arguments: a file must have been named. -/
def finish (a : Arguments) : Option Request := a.file.map fun file => .check file a

/-- Arguments behind the end of the flags. -/
def readPlain : Arguments → List String → Option Request
  | a, [] => a.finish
  | a, arg :: args => (a.setFile arg).bind (readPlain · args)

/-- The arguments in order, up to the first fault or the first that asks for the version or for help. -/
def read : Arguments → List String → Option Request
  | a, [] => a.finish
  | a, arg :: args =>
    match Argument.ofText arg with
    | .plain => (a.setFile arg).bind (read · args)
    | .endOfFlags => readPlain a args
    | .version => some .version
    | .help => some .help
    | .noBuiltins => if a.noBuiltins then none else read { a with noBuiltins := true } args
    | .assigned f value => (a.setValue f value).bind (read · args)
    | .flag f =>
      match args with
      | [] => none
      | value :: rest => if Argument.isValue value then (a.setValue f value).bind (read · rest) else none
    | .unknown => none

end Arguments

/-- What the arguments ask for, if they can be understood. -/
def Request.ofArguments? (args : List String) : Option Request := Arguments.read {} args

/-! ## Runs -/

/-- The end of a run: what it printed, or the fault, or that the arguments were not understood. -/
inductive Outcome where
  | printed (lines : List String)
  | fault (f : Fault)
  | usage

namespace Outcome

def exit : Outcome → Nat
  | .printed _ => 0
  | .fault _ => 1
  | .usage => 2

/-- The text on standard output. -/
def stdout : Outcome → String
  | .printed lines => String.join (lines.map (· ++ "\n"))
  | _ => ""

def code? : Outcome → Option String
  | .fault f => some f.code
  | _ => none

end Outcome

namespace Request

def versionText : String := "cli 0.1.0"

def usageText : String := "Usage: nixty [OPTIONS] <FILE_PATH>"

variable {m : Type → Type} [Monad m]

/-- The directory in which the search for a configuration starts. -/
def startDir (file : String) : String :=
  match Path.parent? file with
  | none | some "" => "."
  | some dir => dir

/-- The configuration for a file, and the directory from which its preludes are seen. -/
def config (files : FileAccess m) (file : String) (args : Arguments) : m (Except Fault (Config × String)) := do
  let found ← match args.config with
    | some path => pure (some path)
    | none => Config.find files (startDir file)
  match found with
  | none => return .ok ({}, startDir file)
  | some path => return (← Config.load files path).map fun c => (c, Config.directory path)

/-- Check files in order, each in the environment that those before it leave. -/
def loadAll (files : FileAccess m) (limit : Option Nat) : Env → List String → m (Except Fault Env)
  | env, [] => return .ok env
  | env, path :: paths => do
    match (← Report.ofFile files path env limit).result with
    | .error f => return .error f
    | .ok (env, _) => loadAll files limit env paths

/-- A line for each scheme of each declaration. -/
def lines (ds : List (String × List Scheme)) : List String :=
  ds.flatMap fun (name, ss) => ss.map fun s => name ++ " :: " ++ s.text

def run (files : FileAccess m) : Request → m Outcome
  | .version => return .printed [versionText]
  | .help => return .printed [usageText]
  | .check file args => do
    match ← config files file args with
    | .error f => return .fault f
    | .ok (c, dir) =>
      let limit := args.limit <|> c.limit
      let env : Env := if args.noBuiltins || c.noBuiltins then ∅ else .builtins
      match ← loadAll files limit env (c.preludePaths dir ++ args.preludes) with
      | .error f => return .fault f
      | .ok env =>
        match (← Report.ofFile files file env limit).result with
        | .error f => return .fault f
        | .ok (_, ds) => return .printed (lines ds)

end Request

/-- Run a command line. -/
def Outcome.ofArguments {m : Type → Type} [Monad m] (files : FileAccess m) (args : List String) : m Outcome :=
  match Request.ofArguments? args with
  | some r => r.run files
  | none => return .usage

end NixTyping
