import NixTyping.Subst
/-!
Schemes: a type with some of its variables quantified. A substitution leaves the quantified variables alone; a variable
that it brings in and that the scheme quantifies becomes quantified.
-/

namespace NixTyping

structure Scheme where
  vars : List Nat
  ty : Ty
  deriving DecidableEq, Repr, Inhabited

namespace Scheme

/-- The scheme that quantifies nothing. -/
def mono (t : Ty) : Scheme := ⟨[], t⟩

/-- Quantify the variables of a type that are not excluded. -/
def generalize (excluded : VarSet) (t : Ty) : Scheme := ⟨(t.free.diff excluded).toList, t⟩

def free (s : Scheme) : VarSet := s.ty.free.diff (.ofList s.vars)

def text (s : Scheme) : String :=
  if s.vars.isEmpty then s.ty.text
  else "forall" ++ String.join (s.vars.map fun v => " " ++ varName v) ++ ". " ++ s.ty.text

def debug (s : Scheme) : String :=
  bracketed "Forall([" (s.vars.map varDebug) "], " ++ s.ty.debug ++ ")"

/-- The renaming of the given variables to 0, 1, 2, .. in the order of the list. -/
def numbering (order : List Nat) : Subst :=
  .ofList ((order.zipIdx).map fun (v, i) => (v, .var i))

/-- A scheme that mentions `unquantified`, which it does not quantify. -/
structure Unclosed where
  unquantified : Nat
  scheme : Scheme
  deriving DecidableEq

def Unclosed.message (e : Unclosed) : String :=
  "type variable " ++ varDebug e.unquantified ++ " not in signature of " ++ e.scheme.debug

/-- Rename the quantified variables to 0, 1, 2, .. in the order in which the body mentions them, and drop those
it does not mention. -/
def renumber (t : Ty) : Scheme :=
  ⟨List.range t.varsInOrder.length, t.apply (numbering t.varsInOrder)⟩

/-- Give a closed scheme its canonical names. Refuses a scheme whose body mentions a variable that is not
quantified, and names the first. -/
def normalize (s : Scheme) : Except Unclosed Scheme :=
  match s.ty.varsInOrder.find? fun v => decide (v ∉ s.vars) with
  | some v => .error ⟨v, s⟩
  | none => .ok (renumber s.ty)

/-- Quantify every variable and rename them canonically. With every variable quantified, `normalize` does not refuse. -/
def closeOver (t : Ty) : Scheme :=
  match (generalize ∅ t).normalize with
  | .ok s => s
  | .error e => e.scheme

/-- Replace the quantified variables by fresh ones, counted up from `next`. Returns the instance and the next
fresh variable. -/
def instantiate (s : Scheme) (next : Nat) : Ty × Nat :=
  (s.ty.apply (.ofList (s.vars.zipIdx.map fun (v, i) => (v, .var (next + i)))), next + s.vars.length)

/-- Apply a substitution to what is not quantified. -/
def apply (su : Subst) (s : Scheme) : Scheme := ⟨s.vars, s.ty.apply (su.without s.vars)⟩

end Scheme

end NixTyping
