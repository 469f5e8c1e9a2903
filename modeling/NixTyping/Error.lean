import NixTyping.Constraint
/-!
Why inference fails. A type error belongs to one branch of the search; an inference failure collects them.
-/

namespace NixTyping

/-- Why one branch of the search failed. -/
inductive TypeError where
  | mismatch (l r : Ty)
  | infinite (v : Nat) (t : Ty)
  | unbound (names : List String)
  | ambiguous (left : List Constraint)
  /-- Two lists of types of different lengths. -/
  | arity (ls rs : List Ty)
  deriving DecidableEq

namespace TypeError

def message : TypeError → String
  | .mismatch l r => "cannot unify " ++ l.text ++ " with " ++ r.text
  | .infinite v t => "infinite type: " ++ varName v ++ " occurs in " ++ t.text
  | .unbound names => "unbound variables: " ++ ", ".intercalate names
  | .ambiguous cs => "ambiguous constraints: " ++ ", ".intercalate (cs.map Constraint.text)
  | .arity ls rs =>
    "cannot unify " ++ bracketed "[" (ls.map Ty.text) "]" ++ " with " ++ bracketed "[" (rs.map Ty.text) "]"

def debug : TypeError → String
  | .mismatch l r => "UnificationFail(" ++ l.debug ++ ", " ++ r.debug ++ ")"
  | .infinite v t => "InfiniteType(" ++ varDebug v ++ ", " ++ t.debug ++ ")"
  | .unbound names => bracketed "UnboundVariables([" (names.map quoted) "])"
  | .ambiguous cs => bracketed "Ambiguous([" (cs.map Constraint.debug) "])"
  | .arity ls rs => bracketed "UnificationMismatch([" (ls.map Ty.debug) "], " ++ bracketed "[" (rs.map Ty.debug) "])"

end TypeError

/-- Why the inference of an expression failed. -/
inductive Failure where
  | typeErrors (errors : List TypeError)
  /-- No branch succeeded and none says why. -/
  | aborted
  /-- A deferred value could not be computed. -/
  | evaluation (reason : String)
  deriving DecidableEq

namespace Failure

def message : Failure → String
  | .typeErrors es => "type inference failed: " ++ "; ".intercalate (es.map TypeError.message)
  | .aborted => "type inference aborted"
  | .evaluation reason => "evaluation failed: " ++ reason

/-- The type errors of a failure. -/
def errors : Failure → List TypeError
  | .typeErrors es => es
  | _ => []

/-- One failure for two: an aborted run says nothing and gives way, else the first is kept. -/
def merge : Failure → Failure → Failure
  | .aborted, other => other
  | this, _ => this

end Failure

end NixTyping
