import NixTyping.Constraint
import NixTyping.Judge.Assumptions
import NixTyping.Judge.Signature
/-!
Judgments: what is assumed of free names, what must hold, and the type of an expression. There is one rule for each
form of expression; it makes the judgment of the whole from those of the parts and from fresh types.
-/

namespace NixTyping

structure Judgment where
  assumptions : Assumptions := ∅
  constraints : List Constraint := []
  ty : Ty
  deriving DecidableEq

namespace Judgment

/-- Nothing to be resolved and nothing to be solved. -/
def ofTy (t : Ty) : Judgment := { ty := t }

/-- The parts together, in order, at a type. -/
def merged (parts : List Judgment) (t : Ty) : Judgment where
  assumptions := ⟨parts.flatMap (·.assumptions.entries)⟩
  constraints := parts.flatMap (·.constraints)
  ty := t

/-- The same with constraints added behind. -/
def require (j : Judgment) (cs : List Constraint) : Judgment := { j with constraints := j.constraints ++ cs }

/-- A free name, at a type that its binder will fix. -/
def reference (name : String) (t : Ty) : Judgment := { assumptions := .single name t, ty := t }

/-- A type that is used under one constraint. -/
def constrained (c : Constraint) (t : Ty) : Judgment := { constraints := [c], ty := t }

def apply (fn arg : Judgment) (result : Ty) : Judgment :=
  (merged [fn, arg] result).require [.eq fn.ty (.fn arg.ty result)]

/-- What every occurrence of a name must be equal to. -/
def tie (a : Assumptions) (name : String) (t : Ty) : List Constraint := (a.lookup name).map fun o => .eq o t

def lambda (param : String) (paramTy : Ty) (body : Judgment) : Judgment where
  assumptions := body.assumptions.remove param
  constraints := body.constraints ++ tie body.assumptions param paramTy
  ty := .fn paramTy body.ty

/-- A field of a pattern: its name, its variable and the judgment of its default. -/
structure PatternField where
  name : String
  var : Nat
  dflt : Option Judgment

/-- A function of a set. Defaults have the types of their fields, and the name of the whole set has its type. -/
def patternLambda (fields : List PatternField) (whole : Option String) (isOpen : Bool) (body : Judgment) :
    Judgment :=
  let record := Ty.ofFields (fields.map fun f => (f.name, .var f.var)) isOpen
  let defaults := fields.filterMap fun f => f.dflt.map fun d => (d, Ty.var f.var)
  let assumptions : Assumptions := ⟨body.assumptions.entries ++ defaults.flatMap (·.1.assumptions.entries)⟩
  let names := fields.map (fun f => (f.name, Ty.var f.var)) ++ whole.toList.map fun a => (a, record)
  { assumptions := assumptions.removeAll (names.map (·.1))
    constraints := body.constraints ++ defaults.flatMap (fun (d, t) => .eq d.ty t :: d.constraints) ++
      names.flatMap fun (name, t) => tie assumptions name t
    ty := .fn record body.ty }

def ifElse (cond yes no : Judgment) : Judgment :=
  (merged [cond, yes, no] yes.ty).require [.eq cond.ty .bool, .eq yes.ty no.ty]

def assertIn (cond body : Judgment) : Judgment := (merged [cond, body] body.ty).require [.eq cond.ty .bool]

def unary (op : UnaryOp) (operand : Judgment) (result : Ty) : Judgment :=
  (merged [operand] result).require [.eq (.fn operand.ty result) op.signature]

/-- An operator without a signature compares any two values, and the result type is not used. -/
def binary (op : BinOp) (l r : Judgment) (result : Ty) : Judgment :=
  match op.signature with
  | none => merged [l, r] .bool
  | some sig => (merged [l, r] result).require [.eq (.binary l.ty r.ty result) sig]

/-- Elements keep their types. -/
def list (items : List Judgment) : Judgment := merged items (.list (items.map (·.ty)))

/-- A set; `extra` are judgments that belong to it without naming a field. -/
def set (fields : List (String × Judgment)) (extra : List Judgment) (isOpen : Bool) : Judgment :=
  merged (fields.map (·.2) ++ extra) (.ofFields (fields.map fun (name, j) => (name, j.ty)) isOpen)

/-- A `let`. Every occurrence of a bound name in the body is an instance of the type of its binding, generalised
outside `mono`. -/
def letIn (bound : List (String × Ty)) (group : List Judgment) (body : Judgment) (mono : VarSet) : Judgment where
  assumptions :=
    ⟨group.flatMap (·.assumptions.entries) ++ (body.assumptions.removeAll (bound.map (·.1))).entries⟩
  constraints := group.flatMap (·.constraints) ++ body.constraints ++
    bound.flatMap fun (name, t) => (body.assumptions.lookup name).map fun o => .implicit o mono t
  ty := body.ty

end Judgment

end NixTyping
