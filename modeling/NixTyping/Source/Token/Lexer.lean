import NixTyping.Source.Token
import NixTyping.Text.Blank
/-!
From text to tokens. Every character belongs to one; blanks, comments and characters that begin nothing make tokens
that are skipped. Whether a run of characters
is a name, a path or a URI depends on the two characters that follow the run.

The lexer keeps the constructs it is inside of: a string, a path or an interpolation, the last with the number of
its open braces.
-/

namespace NixTyping

namespace Lexer

/-! ## Characters -/

def isDigit (c : Char) : Bool := '0' ≤ c && c ≤ '9'

def isLetter (c : Char) : Bool := ('a' ≤ c && c ≤ 'z') || ('A' ≤ c && c ≤ 'Z')

/-- Characters of the run that is looked past to tell names from paths and URIs. -/
def isRunChar (c : Char) : Bool := isLetter c || isDigit c || c = '_' || c = '.' || c = '+' || c = '-'

def isPathChar (c : Char) : Bool := isRunChar c || c = '/'

def isUriChar (c : Char) : Bool :=
  isPathChar c || ['%', '?', ':', '@', '&', '=', '$', ',', '!', '~', '*', '\''].contains c

def isIdentChar (c : Char) : Bool := isLetter c || isDigit c || c = '_' || c = '\'' || c = '-'

/-! ## Measures of tokens -/

/-- The number of characters at the front that satisfy a test. -/
def countWhile (p : Char → Bool) : List Char → Nat
  | [] => 0
  | c :: cs => if p c then countWhile p cs + 1 else 0

/-- What the characters after a run make of the token that begins with it. -/
inductive Outlook where
  | plain | path | storePath | uri
  deriving DecidableEq

/-- Look past the run at the front. A run that begins with `<` also has `<` and `/` in it. -/
def outlook (cs : List Char) : Outlook :=
  let angled := cs.head? = some '<'
  let run := cs.takeWhile fun c => isRunChar c || (angled && (c = '<' || c = '/'))
  match cs.drop run.length with
  | '/' :: c :: _ => if c = '/' || c = '*' || isBlank c then .plain else .path
  | '>' :: _ => .storePath
  | ':' :: c :: _ => if isUriChar c && !run.contains '_' then .uri else .plain
  | _ => .plain

/-- The length of a comment's text with the mark that ends it, if there is one. -/
def commentLength : List Char → Option Nat
  | '*' :: '/' :: _ => some 2
  | _ :: cs => (commentLength cs).map (· + 1)
  | [] => none

/-- The length of a string's text up to its end or an interpolation, if there is one. A backslash takes the next
character with it, and two dollars stand for themselves. -/
def stringTextLength : List Char → Option Nat
  | '"' :: _ => some 0
  | '$' :: '{' :: _ => some 0
  | '\\' :: _ :: cs => (stringTextLength cs).map (· + 2)
  | '$' :: '$' :: cs => (stringTextLength cs).map (· + 2)
  | _ :: cs => (stringTextLength cs).map (· + 1)
  | [] => none

/-- The same for an indented string, where two quotes in front of a quote, a dollar or a backslash do not end it. -/
def indentedTextLength : List Char → Option Nat
  | '\'' :: '\'' :: '\'' :: cs => (indentedTextLength cs).map (· + 3)
  | '\'' :: '\'' :: '$' :: cs => (indentedTextLength cs).map (· + 3)
  | '\'' :: '\'' :: '\\' :: _ :: cs => (indentedTextLength cs).map (· + 4)
  | ['\'', '\'', '\\'] => none
  | '\'' :: '\'' :: _ => some 0
  | '$' :: '{' :: _ => some 0
  | '$' :: '$' :: cs => (indentedTextLength cs).map (· + 2)
  | _ :: cs => (indentedTextLength cs).map (· + 1)
  | [] => none

/-! ## One token -/

/-- A construct the lexer is inside of. -/
inductive Mode where
  | string (indented : Bool)
  | path
  | interp (braces : Nat)
  deriving DecidableEq

/-- The next token: its kind, how many characters it has after the first, and the constructs that are open behind
it. -/
structure Lexeme where
  kind : TokenKind
  more : Nat
  modes : List Mode

def keyword? (s : String) : Option TokenKind :=
  [("assert", .kwAssert), ("else", .kwElse), ("if", .kwIf), ("in", .kwIn), ("inherit", .kwInherit),
   ("let", .kwLet), ("or", .kwOr), ("rec", .kwRec), ("then", .kwThen), ("with", .kwWith)].lookup s

/-- The exponent behind the fraction of a float; a mark without digits makes the token unusable. -/
def floatTail (modes : List Mode) (more : Nat) (cs : List Char) : Lexeme :=
  match cs with
  | e :: cs =>
    if e = 'e' || e = 'E' then
      let sign := match cs with
        | '+' :: _ | '-' :: _ => 1
        | _ => 0
      let digits := countWhile isDigit (cs.drop sign)
      ⟨if digits = 0 then .skipped else .float, more + 1 + sign + digits, modes⟩
    else ⟨.float, more, modes⟩
  | [] => ⟨.float, more, modes⟩

/-- A piece of a path that begins with `first`. One that ends in a slash is unusable unless an interpolation
follows. -/
def pathPiece (modes : List Mode) (first : Char) (cs : List Char) : Lexeme :=
  let more := countWhile isPathChar cs
  let last := ((cs.take more).getLast?).getD first
  match cs.drop more with
  | '$' :: '{' :: _ => ⟨.path, more, .path :: modes⟩
  | _ => ⟨if last = '/' then .skipped else .path, more, modes⟩

/-- A brace that opens inside an interpolation is counted. -/
def openBrace : List Mode → List Mode
  | .interp n :: modes => .interp (n + 1) :: modes
  | modes => modes

/-- A closing brace ends the interpolation in which no brace is open. -/
def closeBrace : List Mode → List Mode
  | .interp 0 :: modes => modes
  | .interp (n + 1) :: modes => .interp n :: modes
  | modes => modes

/-- Operators and punctuation. -/
def symbol? (c : Char) (cs : List Char) : Option (TokenKind × Nat) :=
  match c, cs with
  | '=', '=' :: _ => some (.op .equal, 1)
  | '!', '=' :: _ => some (.op .notEqual, 1)
  | '+', '+' :: _ => some (.op .concat, 1)
  | '-', '>' :: _ => some (.op .implies, 1)
  | '/', '/' :: _ => some (.op .update, 1)
  | '&', '&' :: _ => some (.op .and, 1)
  | '|', '|' :: _ => some (.op .or, 1)
  | '<', '=' :: _ => some (.op .lessEq, 1)
  | '>', '=' :: _ => some (.op .moreEq, 1)
  | '=', _ => some (.assign, 0)
  | '!', _ => some (.bang, 0)
  | '[', _ => some (.bracketOpen, 0)
  | ']', _ => some (.bracketClose, 0)
  | '(', _ => some (.parenOpen, 0)
  | ')', _ => some (.parenClose, 0)
  | '@', _ => some (.at, 0)
  | ':', _ => some (.colon, 0)
  | ',', _ => some (.comma, 0)
  | '?', _ => some (.question, 0)
  | ';', _ => some (.semicolon, 0)
  | '.', _ => some (.dot, 0)
  | '+', _ => some (.op .add, 0)
  | '-', _ => some (.op .sub, 0)
  | '*', _ => some (.op .mul, 0)
  | '/', _ => some (.op .div, 0)
  | '<', _ => some (.op .less, 0)
  | '>', _ => some (.op .more, 0)
  | _, _ => none

/-- The next piece of text between tokens. A tilde without a slash is skipped together with what follows it. -/
def plainLexeme (modes : List Mode) (c : Char) (cs : List Char) : Lexeme :=
  let ahead := outlook (c :: cs)
  if isBlank c then ⟨.skipped, countWhile isBlank cs, modes⟩
  else if c = '#' then ⟨.skipped, countWhile (· ≠ '\n') cs, modes⟩
  else if c = '/' && cs.head? = some '*' then
    ⟨.skipped, ((commentLength (cs.drop 1)).map (· + 1)).getD cs.length, modes⟩
  else if c = '.' && cs.take 2 = ['.', '.'] then ⟨.ellipsis, 2, modes⟩
  else if c = '~' then if cs.head? = some '/' then pathPiece modes c cs else ⟨.skipped, 1, modes⟩
  else if ahead = .path then pathPiece modes c cs
  else if c = '<' && ahead = .storePath then
    let more := countWhile isPathChar cs
    ⟨if (cs.drop more).head? = some '>' then .path else .skipped, more + 1, modes⟩
  else if c = '.' && cs.head?.any isDigit then
    let more := countWhile isDigit cs
    floatTail modes more (cs.drop more)
  else if c = '$' && cs.head? = some '{' then ⟨.interpStart, 1, .interp 0 :: modes⟩
  else if c = '{' then ⟨.braceOpen, 0, openBrace modes⟩
  else if c = '}' then ⟨.braceClose, 0, closeBrace modes⟩
  else if c = '"' then ⟨.stringStart false, 0, .string false :: modes⟩
  else if c = '\'' && cs.head? = some '\'' then ⟨.stringStart true, 1, .string true :: modes⟩
  else if isLetter c || c = '_' then
    if ahead = .uri then ⟨.uri, countWhile isUriChar cs, modes⟩
    else
      let more := countWhile isIdentChar cs
      ⟨(keyword? (String.ofList (c :: cs.take more))).getD .ident, more, modes⟩
  else if isDigit c then
    let more := countWhile isDigit cs
    match cs.drop more with
    | '.' :: rest =>
      let fraction := countWhile isDigit rest
      floatTail modes (more + 1 + fraction) (rest.drop fraction)
    | _ => ⟨.integer, more, modes⟩
  else match symbol? c cs with
    | some (kind, more) => ⟨kind, more, modes⟩
    | none => ⟨.skipped, 0, modes⟩

/-- The next piece of text inside a string that is not its end: an interpolation begins, or text goes on. A string
without an end is skipped. -/
def stringLexeme (modes : List Mode) (length? : Option Nat) (rest : Nat) : Lexeme :=
  match length? with
  | some 0 => ⟨.interpStart, 1, .interp 0 :: modes⟩
  | some (n + 1) => ⟨.stringText, n, modes⟩
  | none => ⟨.skipped, rest, modes⟩

/-- The next piece of text. -/
def lexeme (modes : List Mode) (c : Char) (cs : List Char) : Lexeme :=
  match modes with
  | .string false :: outer =>
    if c = '"' then ⟨.stringStop, 0, outer⟩
    else stringLexeme modes (stringTextLength (c :: cs)) cs.length
  | .string true :: outer =>
    match indentedTextLength (c :: cs) with
    | some 0 => if c = '\'' then ⟨.stringStop, 1, outer⟩ else ⟨.interpStart, 1, .interp 0 :: modes⟩
    | length? => stringLexeme modes length? cs.length
  | .path :: outer =>
    if c = '$' && cs.head? = some '{' then ⟨.interpStart, 1, .interp 0 :: modes⟩
    else if isPathChar c then pathPiece outer c cs
    else plainLexeme outer c cs
  | modes => plainLexeme modes c cs

/-! ## All tokens -/

/-- The number of bytes of a list of characters. -/
def byteCount (cs : List Char) : Nat := cs.foldl (fun n c => n + c.utf8Size) 0

/-- The tokens of a text that begins at byte `pos`. -/
def tokensFrom (modes : List Mode) (pos : Nat) (text : List Char) : List Token :=
  match text with
  | [] => []
  | c :: cs =>
    let l := lexeme modes c cs
    let chars := c :: cs.take l.more
    let stop := pos + byteCount chars
    ⟨l.kind, String.ofList chars, ⟨pos, stop⟩⟩ :: tokensFrom l.modes stop (cs.drop l.more)
termination_by text.length
decreasing_by all_goals simp only [List.length_drop, List.length_cons]; omega

end Lexer

/-- The tokens of a text. -/
def Token.ofText (text : String) : List Token := Lexer.tokensFrom [] 0 text.toList

end NixTyping
