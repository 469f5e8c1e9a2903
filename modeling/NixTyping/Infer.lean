import NixTyping.Judge.Builtins
import NixTyping.Judge.Walk
import NixTyping.Search
/-!
Inference: the schemes of an expression, one for each way to resolve its overloads that type checks. An environment
is all that is carried from one declaration to the next.
-/

namespace NixTyping

/-- What an inference run says: the schemes in the order in which they were found, or why there are none, and what
the search told. -/
structure Inference where
  result : Except Failure (List Scheme)
  events : List Search.Event := []

/-- Every occurrence of a name is an instance of every scheme the environment has for it. -/
def Env.instances (env : Env) (a : Assumptions) : List Constraint :=
  a.entries.flatMap fun (name, t) => ((env.lookup name).getD []).map fun s => .explicit t s

/-- The names that occur and that the environment does not bind. -/
def Env.unbound (env : Env) (a : Assumptions) : List String := a.keys.filter fun name => !env.contains name

/-- What follows from a search: each solution makes a scheme of the type. -/
def schemesOf (t : Ty) (p : Search.Progress) : Except Failure (List Scheme) :=
  if p.substs.isEmpty then
    match distinct p.errors.toList with
    | [] => .error .aborted
    | errors => .error (.typeErrors errors)
  else .ok (p.substs.toList.map fun su => .closeOver (t.apply su))

/-- Infer the schemes of an expression; `limit` bounds their number. -/
def Expr.infer (e : Expr) (env : Env) (limit : Option Nat) : Inference :=
  match e.judge env with
  | .error stuck => { result := .error (.evaluation stuck.message) }
  | .ok (j, s) =>
    match env.unbound j.assumptions with
    | [] =>
      let p := solve (j.constraints ++ env.instances j.assumptions) s.next limit
      { result := schemesOf j.ty p, events := p.events.toList }
    | names => { result := .error (.typeErrors [.unbound names]) }

/-! ## Declarations -/

/-- The declaration at which an inference stopped. -/
structure DeclFailure where
  name : String
  expr : Expr
  failure : Failure

def DeclFailure.message (e : DeclFailure) : String := "cannot infer `" ++ e.name ++ "`"

/-- What the inference of declarations says: the environment with all of them, or the first failure; and what the
searches told. -/
structure Declarations where
  result : Except DeclFailure Env
  events : List Search.Event := []

/-- Infer declarations in order, each in the environment with those before it. -/
def Env.declare (env : Env) (limit : Option Nat) : List (String × Expr) → Declarations
  | [] => { result := .ok env }
  | (name, e) :: decls =>
    let inf := e.infer env limit
    match inf.result with
    | .error failure => { result := .error ⟨name, e, failure⟩, events := inf.events }
    | .ok schemes =>
      let rest := declare (env.extend name schemes) limit decls
      { rest with events := inf.events ++ rest.events }

/-- What an environment has for the names of declarations. -/
def Env.readBack (env : Env) (decls : List (String × Expr)) : List (String × List Scheme) :=
  decls.map fun (name, _) => (name, (env.lookup name).getD [])

end NixTyping
