/-!
Operators and their spelling in the source.
-/

namespace NixTyping

inductive BinOp where
  | add | sub | mul | div
  | and | or | implies
  | equal | notEqual | less | lessEq | more | moreEq
  | concat | update
  deriving DecidableEq, Repr

namespace BinOp

def all : List BinOp :=
  [.add, .sub, .mul, .div, .and, .or, .implies, .equal, .notEqual, .less, .lessEq, .more, .moreEq, .concat, .update]

def text : BinOp → String
  | .add => "+"
  | .sub => "-"
  | .mul => "*"
  | .div => "/"
  | .and => "&&"
  | .or => "||"
  | .implies => "->"
  | .equal => "=="
  | .notEqual => "!="
  | .less => "<"
  | .lessEq => "<="
  | .more => ">"
  | .moreEq => ">="
  | .concat => "++"
  | .update => "//"

def ofText? (s : String) : Option BinOp := all.find? fun op => op.text = s

end BinOp

inductive UnaryOp where
  | not | negate
  deriving DecidableEq, Repr

namespace UnaryOp

def text : UnaryOp → String
  | .not => "!"
  | .negate => "-"

def ofText? (s : String) : Option UnaryOp := [UnaryOp.not, .negate].find? fun op => op.text = s

end UnaryOp

end NixTyping
