/-!
The text of string literals: escapes, and the indentation of strings between double single-quotes. A string is a
list of pieces, text or interpolated expressions.
-/

namespace NixTyping

/-- A piece of a string or of a path. -/
inductive Piece (α : Type) where
  | text (s : String)
  | interp (e : α)
  deriving Repr

namespace StringText

/-- The character behind a backslash. -/
def escaped : Char → Char
  | 'n' => '\n'
  | 'r' => '\r'
  | 't' => '\t'
  | c => c

/-- Resolve the escapes of a string between double quotes. -/
def unescape : List Char → List Char
  | '\\' :: c :: cs => escaped c :: unescape cs
  | c :: cs => c :: unescape cs
  | [] => []

/-- Resolve the escapes of an indented string, which begin with two quotes. -/
def unescapeIndented : List Char → List Char
  | '\'' :: '\'' :: '\'' :: cs => '\'' :: '\'' :: unescapeIndented cs
  | '\'' :: '\'' :: '$' :: cs => '$' :: unescapeIndented cs
  | '\'' :: '\'' :: '\\' :: c :: cs => escaped c :: unescapeIndented cs
  | c :: cs => c :: unescapeIndented cs
  | [] => []

/-- Whether everything up to the first newline is spaces, and what follows that newline. -/
def afterBlankLine : List Char → Option (List Char)
  | '\n' :: cs => some cs
  | ' ' :: cs => afterBlankLine cs
  | _ => none

/-! ## Indentation -/

/-! Where a line stands is told by `spaces`: how many have been met, as long as nothing else was. -/

/-- The indents of the lines with content in a text, and where its last line stands. -/
def indents (spaces : Option Nat) : List Char → List Nat × Option Nat
  | [] => ([], spaces)
  | c :: cs =>
    match spaces with
    | some n =>
      if c = ' ' then indents (some (n + 1)) cs
      else if c = '\n' then indents (some 0) cs
      else
        let (found, last) := indents none cs
        (n :: found, last)
    | none => indents (if c = '\n' then some 0 else none) cs

/-- The indents of the lines with content in a list of pieces. An interpolation is content. -/
def pieceIndents {α : Type} (spaces : Option Nat) : List (Piece α) → List Nat
  | [] => []
  | .interp _ :: ps => spaces.toList ++ pieceIndents none ps
  | .text s :: ps =>
    let (found, last) := indents spaces s.toList
    found ++ pieceIndents last ps

/-- Remove up to `indent` spaces at the beginning of each line, all of them when there is no indent. Returns the
text and where its last line stands. -/
def dedent (indent : Option Nat) (spaces : Option Nat) : List Char → List Char × Option Nat
  | [] => ([], spaces)
  | c :: cs =>
    match spaces with
    | some n =>
      if c = ' ' then
        let (text, last) := dedent indent (some (n + 1)) cs
        (if indent.any (· ≤ n) then c :: text else text, last)
      else
        let (text, last) := dedent indent (if c = '\n' then some 0 else none) cs
        (c :: text, last)
    | none =>
      let (text, last) := dedent indent (if c = '\n' then some 0 else none) cs
      (c :: text, last)

/-- The spaces of a last line without content are cut. -/
def trimLastLine (text : List Char) : List Char :=
  let rest := text.reverse.dropWhile (· = ' ')
  if rest.head? = some '\n' then rest.reverse else text

/-- The pieces of an indented string with indentation and escapes resolved. -/
def dedentPieces {α : Type} (indent : Option Nat) (spaces : Option Nat) : List (Piece α) → List (Piece α)
  | [] => []
  | .interp e :: ps => .interp e :: dedentPieces indent none ps
  | .text s :: ps =>
    let (text, last) := dedent indent spaces s.toList
    let text := if ps.isEmpty then trimLastLine text else text
    .text (String.ofList (unescapeIndented text)) :: dedentPieces indent last ps

/-- A first line of spaces alone is no part of the string. -/
def dropFirstLine {α : Type} : List (Piece α) → List (Piece α)
  | .text s :: ps =>
    match afterBlankLine s.toList with
    | some [] => ps
    | some cs => .text (String.ofList cs) :: ps
    | none => .text s :: ps
  | ps => ps

/-- The pieces of an indented string: lines lose the least indent of those with content. -/
def indentedPieces {α : Type} (ps : List (Piece α)) : List (Piece α) :=
  let ps := dropFirstLine ps
  dedentPieces (pieceIndents (some 0) ps).min? (some 0) ps

/-- The pieces of a string between double quotes. -/
def plainPieces {α : Type} (ps : List (Piece α)) : List (Piece α) :=
  ps.map fun
    | .text s => .text (String.ofList (unescape s.toList))
    | .interp e => .interp e

/-- The pieces of a string literal from its source text. -/
def pieces {α : Type} (indented : Bool) (ps : List (Piece α)) : List (Piece α) :=
  if indented then indentedPieces ps else plainPieces ps

/-- The text of a string without interpolations. -/
def literal? {α : Type} : List (Piece α) → Option String
  | [] => some ""
  | .text s :: ps => (literal? ps).map (s ++ ·)
  | .interp _ :: _ => none

end StringText

end NixTyping
