import NixTyping.Text.Quoted
import NixTyping.Ty.Basic
/-!
The two written forms of a type. The display text is for readers: variables are letters, the arrow associates
to the right and binds loosest, then `|` between alternatives. The debug text shows the structure.
-/

namespace NixTyping

/-- The name of a variable: a letter, and from the 27th on a number that counts the rounds. -/
def varName (v : Nat) : String :=
  let letter := (Char.ofNat ('a'.toNat + v % 26)).toString
  if v / 26 = 0 then letter else letter ++ toString (v / 26)

def Prim.text : Prim → String
  | .null => "null"
  | .bool => "bool"
  | .int => "int"
  | .float => "float"
  | .string => "string"
  | .path => "path"
  | .uri => "uri"

def Prim.debug : Prim → String
  | .null => "Null"
  | .bool => "Bool"
  | .int => "Int"
  | .float => "Float"
  | .string => "String"
  | .path => "Path"
  | .uri => "Uri"

/-- Texts between brackets, divided by commas. -/
def bracketed (opening : String) (items : List String) (closing : String) : String :=
  opening ++ ", ".intercalate items ++ closing

namespace Ty

def isFn : Ty → Bool
  | .fn _ _ => true
  | _ => false

def isOverload : Ty → Bool
  | .overload _ => true
  | _ => false

/-- A record is written with a blank inside its braces, and dots stand for the fields an open one may have. -/
def recordText (fields : List String) (isOpen : Bool) : String :=
  match fields, isOpen with
  | [], true => "\x7b ... \x7d"
  | [], false => "\x7b \x7d"
  | fields, true => bracketed "\x7b " fields ", ... \x7d"
  | fields, false => bracketed "\x7b " fields " \x7d"

mutual

/-- The display text. A list of equal elements shows one of them. -/
def text : Ty → String
  | .var v => varName v
  | .prim p => p.text
  | .list ts => bracketed "[" (if homogeneous ts then (texts ts).take 1 else texts ts) "]"
  | .fn p b => (if p.isFn || p.isOverload then "(" ++ text p ++ ")" else text p) ++ " -> " ++ text b
  | .record fs o => recordText (fieldTexts fs) o
  | .overload ts => " | ".intercalate (alternativeTexts ts)

def texts : List Ty → List String
  | [] => []
  | t :: ts => text t :: texts ts

def fieldTexts : List (String × Ty) → List String
  | [] => []
  | (k, t) :: fs => (k ++ ": " ++ text t) :: fieldTexts fs

/-- A function among alternatives stands in parentheses. -/
def alternativeTexts : List Ty → List String
  | [] => []
  | t :: ts => (if t.isFn then "(" ++ text t ++ ")" else text t) :: alternativeTexts ts

end

mutual

/-- The debug text. -/
def debug : Ty → String
  | .var v => "TyVar(#" ++ toString v ++ ")"
  | .prim p => p.debug
  | .list ts => bracketed "List([" (debugs ts) "])"
  | .fn p b => "Lambda(" ++ debug p ++ " -> " ++ debug b ++ ")"
  | .record fs o => bracketed "AttrSet(\x7b" (fieldDebugs fs) "\x7d, open: " ++ toString o ++ ")"
  | .overload ts => bracketed "Overload([" (debugs ts) "])"

def debugs : List Ty → List String
  | [] => []
  | t :: ts => debug t :: debugs ts

def fieldDebugs : List (String × Ty) → List String
  | [] => []
  | (k, t) :: fs => (quoted k ++ ": " ++ debug t) :: fieldDebugs fs

end

end Ty

def varDebug (v : Nat) : String := "#" ++ toString v

end NixTyping
