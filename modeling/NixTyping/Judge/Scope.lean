import NixTyping.Judge.Slots
import NixTyping.Ty.Basic
import NixTyping.VarSet
/-!
Scopes: what a name stands for where it is used.
-/

namespace NixTyping

/-- Where the type of a field comes from when it is taken out of a record. -/
inductive Origin where
  /-- It was made for this very expression. -/
  | here
  /-- It belongs to a `let` binding and is used as an instance, generalised outside `mono`. -/
  | letBound (mono : VarSet)
  /-- It belongs to a scheme of the environment that quantifies `vars`. -/
  | ambient (vars : List Nat)

/-- The fields of a record whose type is known, and where it comes from. -/
structure KnownRecord where
  fields : List (String × Ty)
  origin : Origin

/-- The names of a group and the slots of their bindings. -/
abbrev NamedSlots := List (String × Nat)

inductive Scope where
  /-- The parameters of a function. Occurrences are assumptions that the function resolves. -/
  | params (names : List String)
  /-- The body of a `let`. Occurrences are assumptions that the `let` resolves. -/
  | letBody (slots : NamedSlots) (mono : VarSet)
  /-- A group while its own bindings are judged, with the component of each of its slots. -/
  | group (slots : NamedSlots) (mono : VarSet) (components : List (Nat × Nat))
  /-- The body of a `with`, and the record it opens if that is known. -/
  | withIn (record : Option KnownRecord)

/-- How a scope binds a name. -/
inductive Lexical where
  | param
  | letBody (slot : Nat) (mono : VarSet)
  | group (slot : Nat) (mono : VarSet) (components : List (Nat × Nat))

namespace Scope

def lexical? (name : String) : Scope → Option Lexical
  | .params names => if name ∈ names then some .param else none
  | .letBody slots mono => (slots.lookup name).map fun slot => .letBody slot mono
  | .group slots mono components => (slots.lookup name).map fun slot => .group slot mono components
  | .withIn _ => none

/-- The record that a `with` opens, if it is one. -/
def with? : Scope → Option (Option KnownRecord)
  | .withIn record => some record
  | _ => none

end Scope

/-- The context of an expression: the scopes around it, innermost first, the variables that are not to be
generalised, and the slots that are being computed, innermost first. -/
structure Context where
  scopes : List Scope := []
  mono : VarSet := ∅
  forcing : List Nat := []

namespace Context

def enter (ctx : Context) (s : Scope) : Context := { ctx with scopes := s :: ctx.scopes }

def fix (ctx : Context) (vars : List Nat) : Context :=
  { ctx with mono := vars.foldl (fun s v => s.insert v) ctx.mono }

/-- The innermost binding of a name. -/
def lexical? (ctx : Context) (name : String) : Option Lexical := ctx.scopes.findSome? (·.lexical? name)

/-- The records opened around an expression, innermost first. -/
def opened (ctx : Context) : List (Option KnownRecord) := ctx.scopes.filterMap (·.with?)

/-- Whether the slot and the innermost slot of its group that is being computed are in one component. -/
def inOwnComponent (ctx : Context) (components : List (Nat × Nat)) (slot : Nat) : Bool :=
  match ctx.forcing.find? fun id => (components.lookup id).isSome with
  | some owner => decide (components.lookup owner = components.lookup slot)
  | none => false

end Context

end NixTyping
