import NixTyping.Expr.Group
import NixTyping.Source.Tree.Parser
import NixTyping.Text.Decimal
/-!
From a syntax tree to expressions. The parts of an expression are built before it, in the order of the text.
-/

namespace NixTyping

namespace Tree

/-- The string literal that a tree is, under any number of parentheses. -/
def stringLiteral? : Tree → Option String
  | .string _ ps => StringText.literal? ps
  | .paren _ inner => stringLiteral? inner
  | _ => none

/-- The largest integer that a literal can have. -/
def maxInteger : Nat := 0x7fffffffffffffff

/-- An integer literal, or nothing when it is too large. -/
def integerForm (digits : String) : Lowering (Form Expr) := do
  let value := Decimal.natOfDigits digits.toList
  if value ≤ maxInteger then return .literal (.int value)
  else
    Lowering.warn (.hugeInteger digits)
    return .missing

/-- A string without interpolations is one literal; `pieces` builds the pieces of any other. -/
def buildString (span : Span) (ps : List (Piece Tree)) (pieces : Lowering (List (Piece Expr))) : Lowering Expr := do
  match StringText.literal? ps with
  | some text => Lowering.build span (.literal (.string text))
  | none => Lowering.build span (.stringParts (← pieces))

mutual

/-- Build the expression of a tree; `source` is the text it was read from. -/
def lower (source : String) : Tree → Lowering Expr
  | .ident span name => Lowering.build span (.ref name)
  | .integer span digits => do Lowering.build span (← integerForm digits)
  | .float span text => Lowering.build span (.literal (.float (Decimal.floatOfText text.toList)))
  | .uri span => Lowering.build span (.literal .uri)
  | .string span ps => buildString span ps (lowerPieces source ps)
  | .path span ps => do
    match StringText.literal? ps with
    | some text => Lowering.build span (.literal (.path text))
    | none => Lowering.build span (.pathParts (← lowerPieces source ps))
  | .paren _ inner => lower source inner
  | .list span items => do Lowering.build span (.list (← lowerAll source items))
  | .set span isRec es => do
    let d ← addEntries source es (.empty span isRec)
    Lowering.build span (.set isRec (← d.bindings))
  | .letIn span es body => do
    let d ← addEntries source es (.empty span false)
    let group ← d.bindings
    Lowering.build span (.letIn group (← lower source body))
  | .letBraces span => do
    Lowering.warn (.letBraces (span.slice source))
    Lowering.build span .missing
  | .lambda span param body => do
    let param ← lowerParam source param
    Lowering.build span (.lambda param (← lower source body))
  | .apply span fn arg => do
    let fn ← lower source fn
    Lowering.build span (.apply fn (← lower source arg))
  | .select span subject steps dflt => do
    let subject ← lower source subject
    let steps ← lowerAttrs source steps
    Lowering.build span (.select subject steps (← lowerOption source dflt))
  | .hasAttr span subject steps => do
    let subject ← lower source subject
    Lowering.build span (.hasAttr subject (← lowerAttrs source steps))
  | .unary span op operand => do Lowering.build span (.unary op (← lower source operand))
  | .binary span op l r => do
    let l ← lower source l
    Lowering.build span (.binary op l (← lower source r))
  | .ifElse span cond yes no => do
    let cond ← lower source cond
    let yes ← lower source yes
    Lowering.build span (.ifElse cond yes (← lower source no))
  | .withIn span scope body => do
    let scope ← lower source scope
    Lowering.build span (.withIn scope (← lower source body))
  | .assertIn span cond body => do
    let cond ← lower source cond
    Lowering.build span (.assertIn cond (← lower source body))

def lowerAll (source : String) : List Tree → Lowering (List Expr)
  | [] => return []
  | t :: ts => do
    let e ← lower source t
    return e :: (← lowerAll source ts)

/-- A part that may have been left out. -/
def lowerOption (source : String) : Option Tree → Lowering (Option Expr)
  | none => return none
  | some t => some <$> lower source t

/-- A part that is missing where it was left out. -/
def lowerOrMissing (source : String) : Option Tree → Lowering Expr
  | none => Lowering.missing
  | some t => lower source t

def lowerPieces (source : String) : List (Piece Tree) → Lowering (List (Piece Expr))
  | [] => return []
  | .text s :: ps => do return .text s :: (← lowerPieces source ps)
  | .interp t :: ps => do
    let e ← lower source t
    return .interp e :: (← lowerPieces source ps)

/-- A step of the path of a selection. A name is a string. -/
def lowerAttr (source : String) : Attr Tree → Lowering Expr
  | .ident span name => Lowering.build span (.literal (.string name))
  | .string span ps => buildString span ps (lowerPieces source ps)
  | .dynamic _ t => lowerOrMissing source t

def lowerAttrs (source : String) : List (Attr Tree) → Lowering (List Expr)
  | [] => return []
  | a :: as => do
    let e ← lowerAttr source a
    return e :: (← lowerAttrs source as)

def lowerParam (source : String) : Param Tree → Lowering (Param Expr)
  | .name x => return .name x
  | .fields fs ellipsis whole => do return .fields (← lowerFields source fs) ellipsis whole

def lowerFields (source : String) : List (String × Option Tree) → Lowering (List (String × Option Expr))
  | [] => return []
  | (name, t) :: fs => do
    let e ← lowerOption source t
    return (name, e) :: (← lowerFields source fs)

/-- A step of the path of a binding: a name, a string without interpolations or a computed name that is one are
known. -/
def keyOf (source : String) : Attr Tree → Key
  | .ident span name => .fixed name span
  | .string span ps =>
    match StringText.literal? ps with
    | some text => .fixed text span
    | none => .computed span (buildString span ps (lowerPieces source ps))
  | .dynamic span t =>
    match t.bind stringLiteral? with
    | some text => .fixed text span
    | none => .computed span (lowerOrMissing source t)

def keysOf (source : String) : List (Attr Tree) → List Key
  | [] => []
  | a :: as => keyOf source a :: keysOf source as

def setLiteral? (source : String) : Tree → Option SetLiteral
  | .set span isRec es => some ⟨span, isRec, addEntries source es⟩
  | _ => none

def addEntry (source : String) : Entry Tree → Draft → Lowering Draft
  | .bind steps value, d => d.bindPath ⟨lower source value, setLiteral? source value⟩ (keysOf source steps)
  | .inherit from? names, d => do
    match ← lowerOption source from? with
    | none => d.inheritNames none (keysOf source names)
    | some e =>
      let (i, d) := d.pushSource e
      d.inheritNames (some i) (keysOf source names)

/-- Add entries to a group. -/
def addEntries (source : String) : List (Entry Tree) → Draft → Lowering Draft
  | [], d => return d
  | e :: es, d => do addEntries source es (← addEntry source e d)

end

end Tree

/-- A tree lowered, with what is odd about it. -/
def Module.ofTree (source : String) (tree : Tree) : Module × List Oddity :=
  let (entry, s) := (tree.lower source).run {}
  (⟨entry, s.next⟩, s.oddities.toList)

/-- A text read and lowered; nothing if it is not one expression. -/
def Module.ofText? (text : String) : Option (Module × List Oddity) := (Tree.ofText? text).map (Module.ofTree text)

end NixTyping
