import NixTyping.Scheme
/-!
Constraints between types. A let-bound type may be generalised once none of the variables it would quantify is
active in another constraint.
-/

namespace NixTyping

inductive Constraint where
  /-- The two types are to be unified. -/
  | eq (l r : Ty)
  /-- The type is to be an instance of the scheme. -/
  | explicit (t : Ty) (scheme : Scheme)
  /-- The type is to be an instance of `bound`, generalised over everything except `mono`. -/
  | implicit (t : Ty) (mono : VarSet) (bound : Ty)
  deriving DecidableEq

namespace Constraint

def apply (su : Subst) : Constraint → Constraint
  | .eq l r => .eq (l.apply su) (r.apply su)
  | .explicit t s => .explicit (t.apply su) (s.apply su)
  | .implicit t mono bound => .implicit (t.apply su) (su.image mono) (bound.apply su)

/-- The variables the constraint can still influence. -/
def active : Constraint → VarSet
  | .eq l r => l.free.union r.free
  | .explicit t s => t.free.union s.free
  | .implicit t mono bound => t.free.union (mono.inter bound.free)

def activeAll (cs : List Constraint) : VarSet := .ofList (cs.flatMap fun c => c.active.toList)

def text : Constraint → String
  | .eq l r => l.text ++ " ~ " ++ r.text
  | .explicit t s => t.text ++ " <= " ++ s.text
  | .implicit t mono bound => t.text ++ bracketed " <=\x7b" (mono.toList.map varName) "\x7d " ++ bound.text

def debug : Constraint → String
  | .eq l r => "Eq(" ++ l.debug ++ ", " ++ r.debug ++ ")"
  | .explicit t s => "ExpInst(" ++ t.debug ++ ", " ++ s.debug ++ ")"
  | .implicit t mono bound =>
    "ImpInst(" ++ t.debug ++ bracketed ", \x7b" (mono.toList.map varDebug) "\x7d, " ++ bound.debug ++ ")"

end Constraint

end NixTyping
