import NixTyping.Project.Fault
import NixTyping.Project.FileTree
import NixTyping.Project.Path
import NixTyping.Toml.Document
/-!
The configuration of a project: what its `nixty.toml` says, and where that file is.
-/

namespace NixTyping

structure Config where
  /-- Files whose declarations are visible in every other, in order. -/
  preludes : List String := []
  /-- How many schemes a declaration may have. -/
  limit : Option Nat := none
  noBuiltins : Bool := false

namespace Config

/-- A setting that may be missing: a value of the wrong kind makes the configuration invalid. -/
def setting? {α : Type} (es : List (String × Toml.Value)) (key : String) (default : α)
    (read : Toml.Value → Option α) : Option α :=
  match es.lookup key with
  | none => some default
  | some v => read v

def text? : Toml.Value → Option String
  | .string s => some s
  | _ => none

def texts? : Toml.Value → Option (List String)
  | .array vs => vs.mapM text?
  | _ => none

def positive? : Toml.Value → Option (Option Nat)
  | .integer n => if 0 < n then some (some n.toNat) else none
  | _ => none

def flag? : Toml.Value → Option Bool
  | .boolean b => some b
  | _ => none

/-- The configuration that a text holds. Keys of no setting are passed over. -/
def ofText? (text : String) : Option Config := do
  let es ← Toml.document? text
  let preludes ← setting? es "prelude" [] texts?
  let limit ← setting? es "max_solutions" none positive?
  let noBuiltins ← setting? es "no_builtins" false flag?
  return { preludes, limit, noBuiltins }

/-- The preludes as seen from where the configuration's directory is seen. -/
def preludePaths (c : Config) (dir : String) : List String := c.preludes.map (Path.join dir ·)

/-- The directory from which the preludes of a configuration file are seen. -/
def directory (path : String) : String := (Path.parent? path).getD "."

def fileName : String := "nixty.toml"

variable {m : Type → Type} [Monad m]

/-- The first path that leads to a file. -/
def firstFile (files : FileAccess m) : List String → m (Option String)
  | [] => return none
  | path :: paths => do
    if ← files.isFile path then return some path else firstFile files paths

/-- The configuration file of a directory, or of the nearest directory above that has one. -/
def find (files : FileAccess m) (dir : String) : m (Option String) :=
  firstFile files ((Path.ancestors dir).map (Path.join · fileName))

def load (files : FileAccess m) (path : String) : m (Except Fault Config) := do
  match ← files.text? path with
  | none => return .error (.unreadable path)
  | some text =>
    match ofText? text with
    | none => return .error (.badConfig path)
    | some c => return .ok c

end Config

end NixTyping
