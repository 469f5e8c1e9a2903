import NixTyping.Sorted
import NixTyping.Toml.Scalar
/-!
TOML documents. A table is defined once: by a header, by the headers of its parts, or by the dotted keys that lead
into it. A document is refused as a whole when a key is defined twice.
-/

namespace NixTyping.Toml

/-! ## Tables -/

/-- How a table came to be: as part of the path of a header, by a header of its own, or by dotted keys. -/
inductive Definition where
  | implied | header | dotted
  deriving DecidableEq

/-- What a key stands for while a document is read. -/
inductive Node where
  | value (v : Value)
  | table (how : Definition) (entries : List (String × Node))
  /-- Tables under one key, the latest first. -/
  | tables (latest : List (String × Node)) (earlier : List (List (String × Node)))

abbrev Entries := List (String × Node)

namespace Entries

def put (es : Entries) (key : String) (n : Node) : Entries := es.map fun e => if e.1 = key then (key, n) else e

/-- Change the table that a header's path leads to, and define the tables on the way. -/
def atPath (change : Entries → Option Entries) : List String → Entries → Option Entries
  | [], es => change es
  | key :: path, es =>
    match findKey key es with
    | none => (atPath change path []).map fun sub => es ++ [(key, .table .implied sub)]
    | some (.table how sub) => (atPath change path sub).map fun sub => es.put key (.table how sub)
    | some (.tables latest earlier) => (atPath change path latest).map fun t => es.put key (.tables t earlier)
    | some (.value _) => none

/-- Define a table by its header. -/
def define (key : String) (es : Entries) : Option Entries :=
  match findKey key es with
  | none => some (es ++ [(key, .table .header [])])
  | some (.table .implied sub) => some (es.put key (.table .header sub))
  | some _ => none

/-- Add a table to those under a key. -/
def defineNext (key : String) (es : Entries) : Option Entries :=
  match findKey key es with
  | none => some (es ++ [(key, .tables [] [])])
  | some (.tables latest earlier) => some (es.put key (.tables [] (latest :: earlier)))
  | some _ => none

/-- Define a value under a dotted key. The keys lead through tables that no header defines, and the value is put
into a table of dotted keys. -/
def assign (v : Value) (last : String) : List String → Entries → Option Entries
  | [], es => if (findKey last es).isSome then none else some (es ++ [(last, .value v)])
  | key :: path, es =>
    match findKey key es with
    | none => (assign v last path []).map fun sub => es ++ [(key, .table .dotted sub)]
    | some (.table how sub) =>
      if how = .header || (path.isEmpty && how ≠ .dotted) then none
      else (assign v last path sub).map fun sub => es.put key (.table how sub)
    | some _ => none

end Entries

mutual

def Node.toValue : Node → Value
  | .value v => v
  | .table _ es => .table (Entries.toValues es)
  | .tables latest earlier => .array ((.table (Entries.toValues latest) :: Entries.allToValues earlier).reverse)

def Entries.toValues : List (String × Node) → List (String × Value)
  | [] => []
  | (key, n) :: es => (key, n.toValue) :: Entries.toValues es

def Entries.allToValues : List (List (String × Node)) → List Value
  | [] => []
  | es :: rest => .table (Entries.toValues es) :: Entries.allToValues rest

end

/-! ## Characters and strings -/

/-- A reader takes characters off the front, or fails. -/
abbrev Reader (α : Type) := StateT (List Char) Option α

namespace Reader

/-- Take the next character. -/
def take : Reader Char := do
  match ← get with
  | c :: cs => set cs; return c
  | [] => failure

/-- Take a text that must stand there. -/
def expect (text : List Char) : Reader Unit := do
  let cs ← get
  if text.isPrefixOf cs then set (cs.drop text.length) else failure

/-- Take a text if it stands there. -/
def accept (text : List Char) : Reader Bool := do
  let cs ← get
  if text.isPrefixOf cs then
    set (cs.drop text.length)
    return true
  else return false

def takeWhile (p : Char → Bool) : Reader (List Char) := do
  let cs ← get
  let front := cs.takeWhile p
  set (cs.drop front.length)
  return front

def blanks : Reader Unit := do
  let _ ← takeWhile fun c => c = ' ' || c = '\t'

/-- Whether a character may stand in a comment or string: all but controls, a tab excepted. -/
def isPlain (c : Char) : Bool := c = '\t' || (' ' ≤ c && c ≠ '\x7f')

def comment : Reader Unit := do
  if ← accept ['#'] then
    let _ ← takeWhile isPlain

/-- A newline, if one stands there. -/
def newline? : Reader Bool := do
  if ← accept ['\n'] then return true else accept ['\r', '\n']

/-- The rest of a line, which holds nothing more than a comment. -/
def lineEnd : Reader Unit := do
  blanks
  comment
  unless (← get).isEmpty do
    unless ← newline? do failure

/-- Blanks, comments and newlines; `fuel` bounds the number of lines. -/
def gap : (fuel : Nat) → Reader Unit
  | 0 => failure
  | n + 1 => do
    blanks
    comment
    if ← newline? then gap n

/-- The character with a code of so many hexadecimal digits. -/
def codePoint (width : Nat) : Reader Char := do
  let cs ← get
  let ds := cs.take width
  let n := Scalar.natInBase 16 ds
  if ds.length = width && ds.all Scalar.isHex && n.isValidChar then
    set (cs.drop width)
    return Char.ofNat n
  else failure

/-- The character behind a backslash. -/
def escape : Reader Char := do
  match ← take with
  | 'b' => return '\x08'
  | 't' => return '\t'
  | 'n' => return '\n'
  | 'f' => return '\x0c'
  | 'r' => return '\r'
  | '"' => return '"'
  | '\\' => return '\\'
  | 'u' => codePoint 4
  | 'U' => codePoint 8
  | _ => failure

/-- The text of a string in double quotes, behind the first. -/
def basicText : (fuel : Nat) → Reader (List Char)
  | 0 => failure
  | n + 1 => do
    let c ← take
    if c = '"' then return []
    else if c = '\\' then return (← escape) :: (← basicText n)
    else if isPlain c then return c :: (← basicText n)
    else failure

/-- The text of a string in single quotes, behind the first. -/
def literalText : Reader (List Char) := do
  let text ← takeWhile fun c => isPlain c && c ≠ '\''
  expect ['\'']
  return text

/-- The end of a string of several lines: three quotes, and up to two before them are part of the text. -/
def closing? (quote : Char) : Reader (Option (List Char)) := do
  let quotes := ((← get).takeWhile (· = quote)).length
  if quotes < 3 then return none
  else if quotes ≤ 5 then
    set ((← get).drop quotes)
    return some (List.replicate (quotes - 3) quote)
  else failure

/-- A backslash at the end of a line takes the blanks and newlines behind it away. -/
def joinsLines (cs : List Char) : Bool :=
  match cs.dropWhile fun c => c = ' ' || c = '\t' with
  | '\n' :: _ | '\r' :: '\n' :: _ => true
  | _ => false

/-- Skip blanks and newlines. -/
def skipLines : (fuel : Nat) → Reader Unit
  | 0 => failure
  | n + 1 => do
    blanks
    if ← newline? then skipLines n

/-- The text of a string of several lines, behind its opening. -/
def linesText (quote : Char) (escapes : Bool) : (fuel : Nat) → Reader (List Char)
  | 0 => failure
  | n + 1 => do
    match ← closing? quote with
    | some text => return text
    | none =>
      if ← accept ['\r', '\n'] then return '\r' :: '\n' :: (← linesText quote escapes n)
      let c ← take
      if c = '\\' && escapes then
        if joinsLines (← get) then
          skipLines (n + 1)
          linesText quote escapes n
        else return (← escape) :: (← linesText quote escapes n)
      else if c = '\n' || isPlain c then return c :: (← linesText quote escapes n)
      else failure

/-! ## Keys -/

def isBareKeyChar (c : Char) : Bool :=
  Scalar.isDecimal c || ('a' ≤ c && c ≤ 'z') || ('A' ≤ c && c ≤ 'Z') || c = '_' || c = '-'

def simpleKey (fuel : Nat) : Reader String := do
  if ← accept ['"'] then return String.ofList (← basicText fuel)
  else if ← accept ['\''] then return String.ofList (← literalText)
  else
    let cs ← takeWhile isBareKeyChar
    if cs.isEmpty then failure else return String.ofList cs

/-- A key and the keys that lead to it, with blanks around. -/
def dottedKey : (fuel : Nat) → Reader (List String)
  | 0 => failure
  | n + 1 => do
    blanks
    let key ← simpleKey (n + 1)
    blanks
    if ← accept ['.'] then return key :: (← dottedKey n) else return [key]

/-! ## Values -/

/-- What ends a number, a date or a boolean. -/
def endsScalar (c : Char) : Bool :=
  c = ' ' || c = '\t' || c = '\n' || c = '\r' || c = ',' || c = ']' || c = '\x7d' || c = '#'

/-- A number, a date or a boolean. Where a date and a time follow each other they are one value. -/
def scalar : Reader Value := do
  let front ← takeWhile fun c => !endsScalar c
  let cs ← get
  let time := match cs with
    | ' ' :: rest => rest.takeWhile fun c => !endsScalar c
    | _ => []
  let whole := front ++ ' ' :: time
  if Scalar.date? front = some [] && Scalar.isDatetime whole then
    set (cs.drop (time.length + 1))
    return .datetime (String.ofList whole)
  match Scalar.value? front with
  | some v => return v
  | none => failure

mutual

def value : (fuel : Nat) → Reader Value
  | 0 => failure
  | n + 1 => do
    if ← accept ['"', '"', '"'] then
      let _ ← newline?
      return .string (String.ofList (← linesText '"' true (n + 1)))
    else if ← accept ['"'] then return .string (String.ofList (← basicText (n + 1)))
    else if ← accept ['\'', '\'', '\''] then
      let _ ← newline?
      return .string (String.ofList (← linesText '\'' false (n + 1)))
    else if ← accept ['\''] then return .string (String.ofList (← literalText))
    else if ← accept ['['] then return .array (← arrayItems n)
    else if ← accept ['\x7b'] then
      blanks
      if ← accept ['\x7d'] then return .table []
      else return .table (Entries.toValues (← inlineEntries n []))
    else scalar
termination_by structural fuel => fuel

/-- The items of an array up to its end; the last may be followed by a comma. -/
def arrayItems : (fuel : Nat) → Reader (List Value)
  | 0 => failure
  | n + 1 => do
    gap (n + 1)
    if ← accept [']'] then return []
    let v ← value n
    gap (n + 1)
    if ← accept [','] then return v :: (← arrayItems n)
    else
      expect [']']
      return [v]
termination_by structural fuel => fuel

/-- The entries of a table on one line up to its end. -/
def inlineEntries : (fuel : Nat) → Entries → Reader Entries
  | 0, _ => failure
  | n + 1, es => do
    let es ← assignment n es
    blanks
    if ← accept [','] then inlineEntries n es
    else
      expect ['\x7d']
      return es
termination_by structural fuel => fuel

/-- A key and its value, put into a table. -/
def assignment : (fuel : Nat) → Entries → Reader Entries
  | 0, _ => failure
  | n + 1, es => do
    let keys ← dottedKey (n + 1)
    expect ['=']
    blanks
    let v ← value n
    match es.assign v (keys.getLastD "") keys.dropLast with
    | some es => return es
    | none => failure
termination_by structural fuel => fuel

end

/-! ## Documents -/

/-- A header between brackets: the path of its table. -/
def header (fuel : Nat) (closing : List Char) : Reader (List String) := do
  let keys ← dottedKey fuel
  expect closing
  lineEnd
  return keys

/-- The lines of a document: `es` is what was read, and `path` leads to the table of the last header. -/
def lines : (fuel : Nat) → (path : List String) → Entries → Reader Entries
  | 0, _, _ => failure
  | n + 1, path, es => do
    gap (n + 1)
    if (← get).isEmpty then return es
    else if ← accept ['[', '['] then
      let keys ← header (n + 1) [']', ']']
      match es.atPath (Entries.defineNext (keys.getLastD "")) keys.dropLast with
      | some es => lines n keys es
      | none => failure
    else if ← accept ['['] then
      let keys ← header (n + 1) [']']
      match es.atPath (Entries.define (keys.getLastD "")) keys.dropLast with
      | some es => lines n keys es
      | none => failure
    else
      let keys ← dottedKey (n + 1)
      expect ['=']
      blanks
      let v ← value (n + 1)
      lineEnd
      match es.atPath (Entries.assign v (keys.getLastD "") keys.dropLast) path with
      | some es => lines n path es
      | none => failure

end Reader

/-- The entries of a document, if it is one. -/
def document? (text : String) : Option (List (String × Value)) :=
  let cs := match text.toList with
    | '\ufeff' :: cs => cs
    | cs => cs
  ((Reader.lines (2 * cs.length + 2) [] []).run cs).map fun (es, _) => Entries.toValues es

end NixTyping.Toml
