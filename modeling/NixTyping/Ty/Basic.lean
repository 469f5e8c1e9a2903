import NixTyping.Sorted
/-!
Types. A type variable is a number; only its identity matters. A list type carries the element types seen where
the list was built. A record type is closed, when it has exactly its fields, or open, when it may have more. An
overload set holds the alternatives for one position, which the solver tries one at a time.
-/

namespace NixTyping

inductive Prim where
  | null | bool | int | float | string | path | uri
  deriving DecidableEq, Repr

/-- Whether values of the type are numbers. -/
def Prim.isNumber : Prim → Bool
  | .int | .float => true
  | _ => false

inductive Ty where
  | var (v : Nat)
  | prim (p : Prim)
  /-- The empty list type doubles as "any list". -/
  | list (elems : List Ty)
  | fn (param body : Ty)
  /-- Fields stand in ascending order of their names. -/
  | record (fields : List (String × Ty)) (isOpen : Bool)
  /-- Built by `Ty.overloads`, so that overload sets do not nest. -/
  | overload (alts : List Ty)
  deriving Repr

instance : Inhabited Ty := ⟨.var 0⟩

namespace Ty

/-! ## Equality is decidable -/

mutual

protected def decEq : (t u : Ty) → Decidable (t = u)
  | .var v, .var w => if h : v = w then isTrue (h ▸ rfl) else isFalse fun e => h (Ty.var.inj e)
  | .prim p, .prim q => if h : p = q then isTrue (h ▸ rfl) else isFalse fun e => h (Ty.prim.inj e)
  | .list ts, .list us =>
    match decEqAll ts us with
    | isTrue h => isTrue (h ▸ rfl)
    | isFalse h => isFalse fun e => h (Ty.list.inj e)
  | .fn p b, .fn q c =>
    match Ty.decEq p q with
    | isFalse h => isFalse fun e => h (Ty.fn.inj e).1
    | isTrue h =>
      match Ty.decEq b c with
      | isFalse h' => isFalse fun e => h' (Ty.fn.inj e).2
      | isTrue h' => isTrue (h ▸ h' ▸ rfl)
  | .record fs o, .record gs o' =>
    match decEqFields fs gs with
    | isFalse h => isFalse fun e => h (Ty.record.inj e).1
    | isTrue h => if h' : o = o' then isTrue (h ▸ h' ▸ rfl) else isFalse fun e => h' (Ty.record.inj e).2
  | .overload ts, .overload us =>
    match decEqAll ts us with
    | isTrue h => isTrue (h ▸ rfl)
    | isFalse h => isFalse fun e => h (Ty.overload.inj e)
  | .var _, .prim _ | .var _, .list _ | .var _, .fn _ _ | .var _, .record _ _ | .var _, .overload _
  | .prim _, .var _ | .prim _, .list _ | .prim _, .fn _ _ | .prim _, .record _ _ | .prim _, .overload _
  | .list _, .var _ | .list _, .prim _ | .list _, .fn _ _ | .list _, .record _ _ | .list _, .overload _
  | .fn _ _, .var _ | .fn _ _, .prim _ | .fn _ _, .list _ | .fn _ _, .record _ _ | .fn _ _, .overload _
  | .record _ _, .var _ | .record _ _, .prim _ | .record _ _, .list _ | .record _ _, .fn _ _
  | .record _ _, .overload _
  | .overload _, .var _ | .overload _, .prim _ | .overload _, .list _ | .overload _, .fn _ _
  | .overload _, .record _ _ => isFalse (by simp)

def decEqAll : (ts us : List Ty) → Decidable (ts = us)
  | [], [] => isTrue rfl
  | [], _ :: _ | _ :: _, [] => isFalse (by simp)
  | t :: ts, u :: us =>
    match Ty.decEq t u with
    | isFalse h => isFalse fun e => h (List.cons.inj e).1
    | isTrue h =>
      match decEqAll ts us with
      | isFalse h' => isFalse fun e => h' (List.cons.inj e).2
      | isTrue h' => isTrue (h ▸ h' ▸ rfl)

def decEqFields : (fs gs : List (String × Ty)) → Decidable (fs = gs)
  | [], [] => isTrue rfl
  | [], _ :: _ | _ :: _, [] => isFalse (by simp)
  | (k, t) :: fs, (l, u) :: gs =>
    if hk : k = l then
      match Ty.decEq t u with
      | isFalse h => isFalse fun e => h (Prod.mk.inj (List.cons.inj e).1).2
      | isTrue h =>
        match decEqFields fs gs with
        | isFalse h' => isFalse fun e => h' (List.cons.inj e).2
        | isTrue h' => isTrue (hk ▸ h ▸ h' ▸ rfl)
    else isFalse fun e => hk (Prod.mk.inj (List.cons.inj e).1).1

end

instance : DecidableEq Ty := Ty.decEq

/-! ## Shapes -/

abbrev null : Ty := .prim .null
abbrev bool : Ty := .prim .bool
abbrev int : Ty := .prim .int
abbrev float : Ty := .prim .float
abbrev string : Ty := .prim .string
abbrev path : Ty := .prim .path
abbrev uri : Ty := .prim .uri

/-- A function of several parameters, one after the other. -/
def fns (params : List Ty) (body : Ty) : Ty := params.foldr .fn body

/-- A record type from fields in any order; of two fields with one name the later stays. -/
def ofFields (fields : List (String × Ty)) (isOpen : Bool) : Ty := .record (sortKeys fields) isOpen

/-- The alternatives an entry of an overload set stands for: one level of nesting is opened. -/
def alternatives : Ty → List Ty
  | .overload alts => alts
  | t => [t]

/-- The overload set of the given alternatives: nested sets are flattened, repeats dropped, and a single
alternative stands for itself. -/
def overloads (alts : List Ty) : Ty :=
  match distinct (alts.flatMap alternatives) with
  | [t] => t
  | ts => .overload ts

/-- All elements are equal to each other; true of no element and of one. -/
def homogeneous : List Ty → Bool
  | t :: u :: rest => decide (t = u) && homogeneous (u :: rest)
  | _ => true

/-- Every field name of the second record is one of the first. Field types are not compared. -/
def coversKeys (fields others : List (String × Ty)) : Bool :=
  others.all fun (k, _) => (findKey k fields).isSome

/-! ## Variables -/

mutual

/-- Whether a variable appears in the type. -/
def occurs (v : Nat) : Ty → Bool
  | .var w => decide (w = v)
  | .prim _ => false
  | .list ts | .overload ts => occursAny v ts
  | .fn p b => occurs v p || occurs v b
  | .record fs _ => occursField v fs

def occursAny (v : Nat) : List Ty → Bool
  | [] => false
  | t :: ts => occurs v t || occursAny v ts

def occursField (v : Nat) : List (String × Ty) → Bool
  | [] => false
  | (_, t) :: fs => occurs v t || occursField v fs

end

mutual

/-- The variables of a type in order of appearance, repeats included. -/
def mentions : Ty → List Nat
  | .var v => [v]
  | .prim _ => []
  | .list ts | .overload ts => mentionsAll ts
  | .fn p b => mentions p ++ mentions b
  | .record fs _ => mentionsFields fs

def mentionsAll : List Ty → List Nat
  | [] => []
  | t :: ts => mentions t ++ mentionsAll ts

def mentionsFields : List (String × Ty) → List Nat
  | [] => []
  | (_, t) :: fs => mentions t ++ mentionsFields fs

end

/-- The variables of a type in order of first appearance. -/
def varsInOrder (t : Ty) : List Nat := distinct t.mentions

/-! ## Size -/

mutual

/-- The number of constructors, the measure by which unification descends. -/
def size : Ty → Nat
  | .var _ | .prim _ => 1
  | .list ts | .overload ts => sizeAll ts + 1
  | .fn p b => size p + size b + 3
  | .record fs _ => sizeFields fs + 1

def sizeAll : List Ty → Nat
  | [] => 0
  | t :: ts => size t + sizeAll ts + 1

def sizeFields : List (String × Ty) → Nat
  | [] => 0
  | (_, t) :: fs => size t + sizeFields fs + 1

end

end Ty

end NixTyping
