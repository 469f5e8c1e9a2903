import NixTyping.Expr.Basic
/-!
The state in which expressions are built: the next number, and what was found odd. Nothing in a tree is refused; a
construct without a meaning becomes a missing expression.
-/

namespace NixTyping

/-- What is odd about a text. -/
inductive Oddity where
  | hugeInteger (digits : String)
  | letBraces (text : String)
  | duplicate (key : String) (span : Span)
  | dynamicInherit (span : Span)
  deriving DecidableEq

def Oddity.message : Oddity → String
  | .hugeInteger digits => s!"invalid integer literal {digits}: number too large to fit in target type"
  | .letBraces text => "legacy `let \x7b \x7d` is not supported: " ++ text
  | .duplicate key span => "duplicate binding `" ++ key ++ "` at " ++ span.text ++ ", keeping the first"
  | .dynamicInherit span => "dynamic attribute in inherit at " ++ span.text

structure Lowering.State where
  next : Nat := 0
  oddities : Array Oddity := #[]

/-- A computation that builds expressions. -/
abbrev Lowering (α : Type) := StateM Lowering.State α

namespace Lowering

/-- Build an expression under the next number. -/
def build (span : Option Span) (form : Form Expr) : Lowering Expr :=
  modifyGet fun s => (.mk s.next span form, { s with next := s.next + 1 })

/-- An expression that was written nowhere. -/
def missing : Lowering Expr := build none .missing

def warn (o : Oddity) : Lowering Unit := modify fun s => { s with oddities := s.oddities.push o }

end Lowering

end NixTyping
