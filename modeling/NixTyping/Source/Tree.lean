import NixTyping.Expr.Operator
import NixTyping.Source.Span
import NixTyping.Source.StringText
/-!
Syntax trees: what a Nix text says, with the span of every construct. A span runs from the first to the last token.
-/

namespace NixTyping

/-- What a function takes: one argument under a name, or a set whose fields get names. A field may have a default,
and the whole set may have a name of its own. -/
inductive Param (α : Type) where
  | name (name : String)
  | fields (fields : List (String × Option α)) (ellipsis : Bool) (whole : Option String)
  deriving Repr

/-- One step of an attribute path. -/
inductive Attr (α : Type) where
  | ident (span : Span) (name : String)
  | string (span : Span) (pieces : List (Piece α))
  /-- A computed name, which may have been left out. -/
  | dynamic (span : Span) (expr : Option α)

def Attr.span {α : Type} : Attr α → Span
  | .ident s _ | .string s _ | .dynamic s _ => s

/-- An entry of a set or of a `let`. -/
inductive Entry (α : Type) where
  | bind (path : List (Attr α)) (value : α)
  | inherit (source : Option α) (names : List (Attr α))

inductive Tree where
  | ident (span : Span) (name : String)
  | integer (span : Span) (digits : String)
  | float (span : Span) (text : String)
  | uri (span : Span)
  | string (span : Span) (pieces : List (Piece Tree))
  | path (span : Span) (pieces : List (Piece Tree))
  | paren (span : Span) (inner : Tree)
  | list (span : Span) (items : List Tree)
  | set (span : Span) (isRec : Bool) (entries : List (Entry Tree))
  | letIn (span : Span) (entries : List (Entry Tree)) (body : Tree)
  /-- A `let` whose bindings stand in braces, of which nothing more is kept. -/
  | letBraces (span : Span)
  | lambda (span : Span) (param : Param Tree) (body : Tree)
  | apply (span : Span) (fn arg : Tree)
  | select (span : Span) (subject : Tree) (path : List (Attr Tree)) (dflt : Option Tree)
  | hasAttr (span : Span) (subject : Tree) (path : List (Attr Tree))
  | unary (span : Span) (op : UnaryOp) (operand : Tree)
  | binary (span : Span) (op : BinOp) (l r : Tree)
  | ifElse (span : Span) (cond yes no : Tree)
  | withIn (span : Span) (scope body : Tree)
  | assertIn (span : Span) (cond body : Tree)

def Tree.span : Tree → Span
  | .ident s _ | .integer s _ | .float s _ | .uri s | .string s _ | .path s _ | .paren s _ | .list s _
  | .set s _ _ | .letIn s _ _ | .letBraces s | .lambda s _ _ | .apply s _ _ | .select s _ _ _ | .hasAttr s _ _
  | .unary s _ _ | .binary s _ _ _ | .ifElse s _ _ _ | .withIn s _ _ | .assertIn s _ _ => s

end NixTyping
