import NixTyping.Expr.OfTree
import NixTyping.Project.Fault
import NixTyping.Project.FileTree
import NixTyping.Project.Path
/-!
The check of a file: its declarations are inferred in order and added to an environment.
-/

namespace NixTyping

/-- What the check of a file says: the environment with its declarations and their schemes, or a fault; and the
warnings on the way. -/
structure Report where
  result : Except Fault (Env × List (String × List Scheme))
  warnings : List String := []

namespace Report

/-- The declarations of a module. One that is no plain set declares its value under a name of its own. -/
def declarations (m : Module) (path : String) : List (String × Expr) :=
  m.declarations?.getD [((Path.stem? path).getD "<expr>", m.entry)]

/-- The check of declarations. They are reported with what the environment has for their names in the end. -/
def ofDeclarations (decls : List (String × Expr)) (env : Env) (limit : Option Nat) : Report :=
  let ds := env.declare limit decls
  { result := (ds.result.map fun env => (env, env.readBack decls)).mapError .untyped
    warnings := LogLine.warnings (ds.events.map (·.line)) }

/-- The check of the text at a path. -/
def ofText (path text : String) (env : Env) (limit : Option Nat) : Report :=
  match Module.ofText? text with
  | none => { result := .error (.badText path) }
  | some (m, oddities) =>
    let r := ofDeclarations (declarations m path) env limit
    { r with warnings := oddities.map (·.message) ++ r.warnings }

variable {m : Type → Type} [Monad m]

/-- The check of the file at a path. -/
def ofFile (files : FileAccess m) (path : String) (env : Env) (limit : Option Nat) : m Report := do
  match ← files.text? path with
  | none => return { result := .error (.unreadable path) }
  | some text => return ofText path text env limit

end Report

end NixTyping
