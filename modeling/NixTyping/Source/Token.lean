import NixTyping.Expr.Operator
import NixTyping.Source.Span
/-!
Tokens of a Nix text. A string or a path with interpolations is a sequence of tokens: its pieces, and between the
marks of an interpolation the tokens of the expression. The mark that ends an interpolation is a closing brace.
-/

namespace NixTyping

inductive TokenKind where
  /-- Blanks, a comment, or characters that begin no token. -/
  | skipped
  | ident | integer | float | uri
  /-- A path, or a piece of one between interpolations. -/
  | path
  | stringStart (indented : Bool)
  /-- A piece of a string, as it stands in the source. -/
  | stringText
  | stringStop
  | interpStart
  | kwAssert | kwElse | kwIf | kwIn | kwInherit | kwLet | kwOr | kwRec | kwThen | kwWith
  | ellipsis | braceOpen | braceClose | bracketOpen | bracketClose | parenOpen | parenClose
  | at | colon | comma | assign | question | semicolon | dot
  | bang
  | op (op : BinOp)
  deriving DecidableEq, Repr

structure Token where
  kind : TokenKind
  text : String
  span : Span
  deriving Repr

end NixTyping
