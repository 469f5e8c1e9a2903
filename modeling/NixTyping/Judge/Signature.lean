import NixTyping.Expr.Basic
import NixTyping.Ty.Basic
/-!
Types of literals and signatures of operators. An operator is typed by equating its function type with a fixed
signature. One that works at several types has an overload set, so that the solver makes the choice.
-/

namespace NixTyping

def Literal.ty : Literal → Ty
  | .int _ => .int
  | .float _ => .float
  | .string _ => .string
  | .path _ => .path
  | .uri => .uri

/-- The pairs of number types, integers first. -/
def numberPairs : List (Prim × Prim) := [(.int, .int), (.int, .float), (.float, .int), (.float, .float)]

/-- The type of an arithmetic result: a float on either side makes it a float. -/
def arithmeticResult : Prim × Prim → Prim
  | (.float, _) => .float
  | (_, .float) => .float
  | _ => .int

/-- The type `l -> r -> result`. -/
def Ty.binary (l r result : Ty) : Ty := .fn l (.fn r result)

def arithmeticSignatures : List Ty :=
  numberPairs.map fun (l, r) => .binary (.prim l) (.prim r) (.prim (arithmeticResult (l, r)))

def comparisonSignatures : List Ty := numberPairs.map fun (l, r) => .binary (.prim l) (.prim r) .bool

/-- The signature of a binary operator. Equality has none: it compares any two values. -/
def BinOp.signature : BinOp → Option Ty
  | .add => some (.overloads (arithmeticSignatures ++
      [.binary .string .string .string, .binary .path .path .path, .binary .path .string .path,
       .binary .string .path .string]))
  | .sub | .mul | .div => some (.overloads arithmeticSignatures)
  | .less | .lessEq | .more | .moreEq => some (.overloads (comparisonSignatures ++
      [.binary .string .string .bool, .binary .path .path .bool]))
  | .equal | .notEqual => none
  | .and | .or | .implies => some (.binary .bool .bool .bool)
  | .concat => some (.binary (.list []) (.list []) (.list []))
  | .update => some (.binary (.record [] true) (.record [] true) (.record [] true))

def UnaryOp.signature : UnaryOp → Ty
  | .not => .fn .bool .bool
  | .negate => .overloads [.fn .int .int, .fn .float .float]

end NixTyping
