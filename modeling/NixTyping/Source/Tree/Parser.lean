import NixTyping.Source.Token.Lexer
import NixTyping.Source.Tree
/-!
From tokens to a syntax tree. The grammar is read from left to right with one token to look at, two behind an
opening brace. A text is refused as a whole: only whether it is one expression is told.

To look at the next token is to pass over skipped ones. What closes a parenthesis or an interpolation is the token
behind its expression, whichever it is. An expression looks at what follows to see whether it goes on, and so it is
the next token that counts; only a `let` with braces has its end in itself, and a skipped token behind it closes too.

Every rule passes a smaller `fuel` on; between two tokens it does so fewer than `stepsPerToken` times.
-/

namespace NixTyping

namespace Grammar

/-- A rule reads tokens off the front, or fails. -/
abbrev Rule (α : Type) := StateT (List Token) Option α

/-- Pass over skipped tokens. -/
def skip : Rule Unit := modify (·.dropWhile fun t => t.kind = .skipped)

def peek : Rule (Option TokenKind) := do
  skip
  return (← get).head?.map (·.kind)

/-- Whether the next token is of a kind. -/
def sees (kind : TokenKind) : Rule Bool := do return decide ((← peek) = some kind)

/-- Take a token, even a skipped one. -/
def take : Rule Token := do
  match ← get with
  | t :: ts => set ts; return t
  | [] => failure

/-- Take the next token. -/
def next : Rule Token := do
  skip
  take

/-- Take the next token, which must be of a kind. -/
def expect (kind : TokenKind) : Rule Token := do
  let t ← next
  if t.kind = kind then return t else failure

/-- Take the next token if it is of a kind. -/
def accept (kind : TokenKind) : Rule (Option Token) := do
  if ← sees kind then some <$> next else return none

/-! ## Operators -/

inductive Assoc where
  | left | right | none
  deriving DecidableEq

/-- A level of operators. -/
inductive Level where
  | binary (assoc : Assoc) (ops : List BinOp)
  | negation

/-- The levels of operators, loosest first. -/
def levels : List Level :=
  [.binary .right [.implies], .binary .left [.or], .binary .left [.and], .binary .none [.equal, .notEqual],
   .binary .none [.less, .lessEq, .more, .moreEq], .binary .right [.update], .negation,
   .binary .left [.add, .sub], .binary .left [.mul, .div], .binary .right [.concat]]

/-- The next token's operator, if it is one of the given ones. -/
def seesOp (ops : List BinOp) : Rule (Option BinOp) := do
  match ← peek with
  | some (.op op) => return if op ∈ ops then some op else none
  | _ => return none

def binaryTree (op : BinOp) (l r : Tree) : Tree := .binary (l.span.upTo r.span) op l r

/-! ## Leaves -/

/-- Whether an argument can begin with a token. -/
def beginsArgument : TokenKind → Bool
  | .kwRec | .braceOpen | .bracketOpen | .parenOpen | .stringStart _ | .ident | .integer | .float | .uri | .path => true
  | _ => false

/-- The kinds of the tokens in front that are not skipped, up to a number. -/
def kindsAhead : (count : Nat) → List Token → List TokenKind
  | 0, _ | _, [] => []
  | n + 1, t :: ts => if t.kind = .skipped then kindsAhead (n + 1) ts else t.kind :: kindsAhead n ts

/-- Whether an opening brace begins a parameter: told by the two tokens behind it. -/
def beginsPattern : Rule Bool := do
  match kindsAhead 3 (← get) with
  | .braceOpen :: .ident :: .comma :: _ | .braceOpen :: .ident :: .question :: _
  | .braceOpen :: .ident :: .braceClose :: _ | .braceOpen :: .ellipsis :: .braceClose :: _
  | .braceOpen :: .braceClose :: .colon :: _ | .braceOpen :: .braceClose :: .at :: _ => return true
  | _ => return false

/-- The kind of the token in front, even a skipped one. -/
def peekAny : Rule (Option TokenKind) := do return (← get).head?.map (·.kind)

/-- Take the skipped tokens in front. -/
def takeSkipped : Rule (List Token) := do
  let gap := (← get).takeWhile fun t => t.kind = .skipped
  skip
  return gap

/-- The end of what a token closes: a skipped token stands outside. -/
def closedBy (closer : Token) (inner : Span) : Span := if closer.kind = .skipped then inner else closer.span

/-- The name bound to the whole set behind a pattern. -/
def patternAlias : Rule (Option String) := do
  match ← accept .at with
  | some _ => return some (← expect .ident).text
  | none => return none

/-- The span of a path, which has at least one step. -/
def pathStop (path : List (Attr Tree)) (dflt : Span) : Span := (path.getLast?.map (·.span)).getD dflt

/-! ## Expressions -/

mutual

/-- An expression; `depth` counts how many may still be nested, this one included. -/
def expr : (fuel depth : Nat) → Rule Tree
  | 0, _ | _, 0 => failure
  | n + 1, d + 1 => do
    match ← peek with
    | some .kwLet =>
      let start ← next
      if (← accept .braceOpen).isSome then
        let _ ← entries n d .braceClose
        let stop ← expect .braceClose
        return .letBraces (start.span.upTo stop.span)
      else
        let es ← entries n d .kwIn
        let _ ← expect .kwIn
        let body ← expr n d
        return .letIn (start.span.upTo body.span) es body
    | some .kwWith =>
      let start ← next
      let scope ← expr n d
      let _ ← expect .semicolon
      let body ← expr n d
      return .withIn (start.span.upTo body.span) scope body
    | some .kwAssert =>
      let start ← next
      let cond ← expr n d
      let _ ← expect .semicolon
      let body ← expr n d
      return .assertIn (start.span.upTo body.span) cond body
    | some .kwIf =>
      let start ← next
      let cond ← expr n d
      let _ ← expect .kwThen
      let yes ← expr n d
      let _ ← expect .kwElse
      let no ← expr n d
      return .ifElse (start.span.upTo no.span) cond yes no
    | _ => operation n d levels
termination_by structural fuel => fuel

/-- An operation of one of the given levels. -/
def operation : (fuel depth : Nat) → List Level → Rule Tree
  | 0, _, _ => failure
  | n + 1, d, [] => queried n d
  | n + 1, d, .negation :: ls => do
    match ← accept .bang with
    | some t =>
      let operand ← operation n d (.negation :: ls)
      return .unary (t.span.upTo operand.span) .not operand
    | none => operation n d ls
  | n + 1, d, .binary assoc ops :: ls => do
    let l ← operation n d ls
    match ← seesOp ops with
    | none => return l
    | some op =>
      let _ ← next
      match assoc with
      | .none => return binaryTree op l (← operation n d ls)
      | .right => return binaryTree op l (← operation n d (.binary assoc ops :: ls))
      | .left => moreOperands n d ops ls (binaryTree op l (← operation n d ls))
termination_by structural fuel => fuel

/-- Further operands of a level that associates to the left. -/
def moreOperands : (fuel depth : Nat) → List BinOp → List Level → Tree → Rule Tree
  | 0, _, _, _, _ => failure
  | n + 1, d, ops, ls, l => do
    match ← seesOp ops with
    | none => return l
    | some op =>
      let _ ← next
      moreOperands n d ops ls (binaryTree op l (← operation n d ls))
termination_by structural fuel => fuel

/-- An operand that may be asked for attributes. -/
def queried : (fuel depth : Nat) → Rule Tree
  | 0, _ => failure
  | n + 1, d => do moreQueries n d (← negated n d)
termination_by structural fuel => fuel

def moreQueries : (fuel depth : Nat) → Tree → Rule Tree
  | 0, _, _ => failure
  | n + 1, d, subject => do
    match ← accept .question with
    | none => return subject
    | some _ =>
      let path ← attrPath n d
      moreQueries n d (.hasAttr (subject.span.upTo (pathStop path subject.span)) subject path)
termination_by structural fuel => fuel

def negated : (fuel depth : Nat) → Rule Tree
  | 0, _ => failure
  | n + 1, d => do
    match ← accept (.op .sub) with
    | some t =>
      let operand ← negated n d
      return .unary (t.span.upTo operand.span) .negate operand
    | none => moreArguments n d (← simple n d)
termination_by structural fuel => fuel

/-- The arguments of a function. -/
def moreArguments : (fuel depth : Nat) → Tree → Rule Tree
  | 0, _, _ => failure
  | n + 1, d, fn => do
    if (← peek).any beginsArgument then
      let arg ← simple n d
      moreArguments n d (.apply (fn.span.upTo arg.span) fn arg)
    else return fn
termination_by structural fuel => fuel

/-- A simple expression with the selection behind it. Where nothing is selected, `or` is an argument. -/
def simple : (fuel depth : Nat) → Rule Tree
  | 0, _ => failure
  | n + 1, d => do
    let e ← atom n d
    match ← peek with
    | some .dot =>
      let _ ← next
      let path ← attrPath n d
      match ← accept .kwOr with
      | some _ =>
        let dflt ← simple n d
        return .select (e.span.upTo dflt.span) e path (some dflt)
      | none => return .select (e.span.upTo (pathStop path e.span)) e path none
    | some .kwOr =>
      let t ← next
      return .apply (e.span.upTo t.span) e (.ident t.span t.text)
    | _ => return e
termination_by structural fuel => fuel

/-- A simple expression without a selection. -/
def atom : (fuel depth : Nat) → Rule Tree
  | 0, _ => failure
  | n + 1, d => do
    if ← beginsPattern then
      let start ← next
      let (fields, ellipsis) ← patternFields n d
      let whole ← patternAlias
      let _ ← expect .colon
      let body ← expr n d
      return .lambda (start.span.upTo body.span) (.fields fields ellipsis whole) body
    let start ← next
    match start.kind with
    | .parenOpen =>
      let inner ← expr n d
      let closer ← take
      return .paren (start.span.upTo (closedBy closer inner.span)) inner
    | .bracketOpen =>
      let items ← listItems n d
      let stop ← expect .bracketClose
      return .list (start.span.upTo stop.span) items
    | .braceOpen =>
      let es ← entries n d .braceClose
      let stop ← expect .braceClose
      return .set (start.span.upTo stop.span) false es
    | .kwRec =>
      let _ ← expect .braceOpen
      let es ← entries n d .braceClose
      let stop ← expect .braceClose
      return .set (start.span.upTo stop.span) true es
    | .stringStart indented =>
      let ps ← stringPieces n d
      let stop ← expect .stringStop
      return .string (start.span.upTo stop.span) (StringText.pieces indented ps)
    | .integer => return .integer start.span start.text
    | .float => return .float start.span start.text
    | .uri => return .uri start.span
    | .path =>
      let gap ← takeSkipped
      if ← sees .interpStart then
        let (ps, stop) ← pathInterp n d gap
        return .path (start.span.upTo stop) (.text start.text :: ps)
      else return .path start.span [.text start.text]
    | .ident =>
      match ← peek with
      | some .colon =>
        let _ ← next
        let body ← expr n d
        return .lambda (start.span.upTo body.span) (.name start.text) body
      | some .at =>
        let _ ← next
        let _ ← expect .braceOpen
        let (fields, ellipsis) ← patternFields n d
        let _ ← expect .colon
        let body ← expr n d
        return .lambda (start.span.upTo body.span) (.fields fields ellipsis (some start.text)) body
      | _ => return .ident start.span start.text
    | _ => failure
termination_by structural fuel => fuel

def listItems : (fuel depth : Nat) → Rule (List Tree)
  | 0, _ => failure
  | n + 1, d => do
    if ← sees .bracketClose then return []
    let e ← simple n d
    return e :: (← listItems n d)
termination_by structural fuel => fuel

/-- The fields of a pattern up to its closing brace, and whether more are allowed. -/
def patternFields : (fuel depth : Nat) → Rule (List (String × Option Tree) × Bool)
  | 0, _ => failure
  | n + 1, d => do
    match ← peek with
    | some .braceClose =>
      let _ ← next
      return ([], false)
    | some .ellipsis =>
      let _ ← next
      let _ ← expect .braceClose
      return ([], true)
    | _ =>
      let name ← expect .ident
      let dflt ← match ← accept .question with
        | some _ => some <$> expr n d
        | none => pure none
      match ← accept .comma with
      | some _ =>
        let (fields, ellipsis) ← patternFields n d
        return ((name.text, dflt) :: fields, ellipsis)
      | none =>
        let _ ← expect .braceClose
        return ([(name.text, dflt)], false)
termination_by structural fuel => fuel

/-- The pieces of a string up to its end. -/
def stringPieces : (fuel depth : Nat) → Rule (List (Piece Tree))
  | 0, _ => failure
  | n + 1, d => do
    match ← peek with
    | some .stringText =>
      let t ← next
      return .text t.text :: (← stringPieces n d)
    | some .interpStart =>
      let _ ← next
      let e ← expr n d
      let _ ← take
      return .interp e :: (← stringPieces n d)
    | _ => return []
termination_by structural fuel => fuel

/-- An interpolation of a path with the pieces behind it. The skipped tokens in front of it, `gap`, are pieces too. -/
def pathInterp : (fuel depth : Nat) → (gap : List Token) → Rule (List (Piece Tree) × Span)
  | 0, _, _ => failure
  | n + 1, d, gap => do
    let _ ← next
    let e ← expr n d
    let closer ← take
    let rest := if closer.kind = .skipped then [closer] else []
    let (ps, stop) ← pathPieces n d rest (closedBy closer e.span)
    return (gap.map (.text ·.text) ++ .interp e :: ps, stop)
termination_by structural fuel => fuel

/-- Further pieces of a path with interpolations. Only what stands right there belongs to it. -/
def pathPieces : (fuel depth : Nat) → (gap : List Token) → (last : Span) → Rule (List (Piece Tree) × Span)
  | 0, _, _, _ => failure
  | n + 1, d, gap, last => do
    match ← peekAny with
    | some .interpStart => pathInterp n d gap
    | some .path =>
      let t ← next
      let (ps, stop) ← pathPieces n d [] t.span
      return (gap.map (.text ·.text) ++ .text t.text :: ps, stop)
    | _ => return ([], last)
termination_by structural fuel => fuel

def attrPath : (fuel depth : Nat) → Rule (List (Attr Tree))
  | 0, _ => failure
  | n + 1, d => do
    let a ← attr n d
    match ← accept .dot with
    | some _ => return a :: (← attrPath n d)
    | none => return [a]
termination_by structural fuel => fuel

def attr : (fuel depth : Nat) → Rule (Attr Tree)
  | 0, _ => failure
  | n + 1, d => do
    let start ← next
    match start.kind with
    | .ident | .kwOr => return .ident start.span start.text
    | .stringStart indented =>
      let ps ← stringPieces n d
      let stop ← expect .stringStop
      return .string (start.span.upTo stop.span) (StringText.pieces indented ps)
    | .interpStart =>
      let es ← interpolated n d
      let stop ← expect .braceClose
      return .dynamic (start.span.upTo stop.span) es.head?
    | _ => failure
termination_by structural fuel => fuel

/-- The expressions of a computed name; the first one counts. -/
def interpolated : (fuel depth : Nat) → Rule (List Tree)
  | 0, _ => failure
  | n + 1, d => do
    if ← sees .braceClose then return []
    let e ← expr n d
    return e :: (← interpolated n d)
termination_by structural fuel => fuel

/-- The entries of a set or `let` up to the token that ends it. -/
def entries : (fuel depth : Nat) → TokenKind → Rule (List (Entry Tree))
  | 0, _, _ => failure
  | n + 1, d, stop => do
    if ← sees stop then return []
    match ← accept .kwInherit with
    | some _ =>
      let source ← match ← accept .parenOpen with
        | some _ =>
          let e ← expr n d
          let _ ← expect .parenClose
          pure (some e)
        | none => pure none
      let names ← inheritedNames n d
      let _ ← expect .semicolon
      return .inherit source names :: (← entries n d stop)
    | none =>
      let path ← attrPath n d
      let _ ← expect .assign
      let value ← expr n d
      let _ ← expect .semicolon
      return .bind path value :: (← entries n d stop)
termination_by structural fuel => fuel

def inheritedNames : (fuel depth : Nat) → Rule (List (Attr Tree))
  | 0, _ => failure
  | n + 1, d => do
    if ← sees .semicolon then return []
    let a ← attr n d
    return a :: (← inheritedNames n d)
termination_by structural fuel => fuel

end

/-- How many expressions may be nested, the outermost included. -/
def maxDepth : Nat := 512

/-- More steps than any rule takes between two tokens. -/
def stepsPerToken : Nat := 24

end Grammar

/-- The tree of a text that is one expression. -/
def Tree.ofText? (text : String) : Option Tree :=
  let tokens := Token.ofText text
  match (Grammar.expr (Grammar.stepsPerToken * (tokens.length + 1)) Grammar.maxDepth).run tokens with
  | some (tree, rest) => if rest.all fun t => t.kind = .skipped then some tree else none
  | none => none

end NixTyping
