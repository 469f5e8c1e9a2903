import NixTyping.Text.Decimal
import NixTyping.Toml.Value
/-!
Numbers, dates and booleans, told apart by their text.
-/

namespace NixTyping.Toml

namespace Scalar

def isDecimal (c : Char) : Bool := '0' ≤ c && c ≤ '9'

/-- Digits of a base with single underscores between them; returns the digits alone. -/
def digits? (isDigit : Char → Bool) : List Char → Option (List Char)
  | [] => none
  | [c] => if isDigit c then some [c] else none
  | c :: '_' :: d :: cs => if isDigit c then (digits? isDigit (d :: cs)).map (c :: ·) else none
  | c :: d :: cs => if isDigit c then (digits? isDigit (d :: cs)).map (c :: ·) else none

/-- Split a sign off; true for a minus. -/
def sign : List Char → Bool × List Char
  | '+' :: cs => (false, cs)
  | '-' :: cs => (true, cs)
  | cs => (false, cs)

/-- The digits of a decimal number, which has no zero in front. -/
def decimal? (cs : List Char) : Option (List Char) :=
  match cs with
  | '0' :: _ :: _ => none
  | cs => digits? isDecimal cs

def digitValue (c : Char) : Nat :=
  if isDecimal c then c.toNat - '0'.toNat
  else if 'a' ≤ c && c ≤ 'f' then c.toNat - 'a'.toNat + 10
  else c.toNat - 'A'.toNat + 10

def isHex (c : Char) : Bool := isDecimal c || ('a' ≤ c && c ≤ 'f') || ('A' ≤ c && c ≤ 'F')

def natInBase (base : Nat) (ds : List Char) : Nat := ds.foldl (fun n c => base * n + digitValue c) 0

/-- An integer that fits 64 bits with its sign. -/
def inRange (n : Int) : Option Int := if -0x8000000000000000 ≤ n && n < 0x8000000000000000 then some n else none

/-- A number in another base has no sign. -/
def based? (base : Nat) (isDigit : Char → Bool) (cs : List Char) : Option Int :=
  (digits? isDigit cs).bind fun ds => inRange (natInBase base ds)

def integer? (cs : List Char) : Option Int :=
  match cs with
  | '0' :: 'x' :: ds => based? 16 isHex ds
  | '0' :: 'o' :: ds => based? 8 (fun c => '0' ≤ c && c ≤ '7') ds
  | '0' :: 'b' :: ds => based? 2 (fun c => c = '0' || c = '1') ds
  | cs =>
    let (negative, ds) := sign cs
    (decimal? ds).bind fun ds =>
      let n : Int := natInBase 10 ds
      inRange (if negative then -n else n)

/-- The exponent of a float, with its mark. -/
def isExponent : List Char → Bool
  | [] => true
  | e :: cs => (e = 'e' || e = 'E') && (digits? isDecimal (sign cs).2).isSome

/-- A fraction with its point, and an exponent. -/
def isFraction : List Char → Bool
  | '.' :: cs =>
    let ds := cs.takeWhile fun c => isDecimal c || c = '_'
    (digits? isDecimal ds).isSome && isExponent (cs.drop ds.length)
  | cs => isExponent cs

/-- Whether a text is a float: a whole part, then a fraction or an exponent. What is too large is none. -/
def isFloat (cs : List Char) : Bool :=
  let (negative, rest) := sign cs
  let whole := rest.takeWhile fun c => isDecimal c || c = '_'
  let tail := rest.drop whole.length
  rest = ['i', 'n', 'f'] || rest = ['n', 'a', 'n'] ||
    ((decimal? whole).isSome && !tail.isEmpty && isFraction tail &&
      (negative || Decimal.floatOfText (rest.filter (· ≠ '_')) < 1 / 0))

/-! ## Dates -/

/-- A number of exactly so many digits in front, and what follows it. -/
def fixed? (width : Nat) (cs : List Char) : Option (Nat × List Char) :=
  let ds := cs.take width
  if ds.length = width && ds.all isDecimal then some (natInBase 10 ds, cs.drop width) else none

/-- A character in front, and what follows it. -/
def mark? (c : Char) : List Char → Option (List Char)
  | d :: cs => if c = d then some cs else none
  | [] => none

def daysIn (year month : Nat) : Nat :=
  if month = 2 then if year % 4 = 0 && (year % 100 ≠ 0 || year % 400 = 0) then 29 else 28
  else if month = 4 || month = 6 || month = 9 || month = 11 then 30
  else 31

/-- A date in front, and what follows it. -/
def date? (cs : List Char) : Option (List Char) := do
  let (year, cs) ← fixed? 4 cs
  let (month, cs) ← fixed? 2 (← mark? '-' cs)
  let (day, cs) ← fixed? 2 (← mark? '-' cs)
  if 1 ≤ month && month ≤ 12 && 1 ≤ day && day ≤ daysIn year month then some cs else none

/-- Parts of a second in front, if there are any, and what follows them. -/
def secondParts? : List Char → Option (List Char)
  | '.' :: cs =>
    let ds := cs.takeWhile isDecimal
    if ds.isEmpty then none else some (cs.drop ds.length)
  | cs => some cs

/-- A time of day in front, and what follows it. -/
def time? (cs : List Char) : Option (List Char) := do
  let (hour, cs) ← fixed? 2 cs
  let (minute, cs) ← fixed? 2 (← mark? ':' cs)
  let (second, cs) ← fixed? 2 (← mark? ':' cs)
  if hour < 24 && minute < 60 && second ≤ 60 then secondParts? cs else none

/-- Whether a text is an offset from universal time, or nothing. -/
def isOffset (cs : List Char) : Bool :=
  let hours : Option (List Char) := do
    let (hour, cs) ← fixed? 2 ((sign cs).2)
    let (minute, cs) ← fixed? 2 (← mark? ':' cs)
    if hour < 24 && minute < 60 then some cs else none
  match cs with
  | [] | ['Z'] | ['z'] => true
  | '+' :: _ | '-' :: _ => hours = some []
  | _ => false

/-- Whether a text is a date, a time or both. -/
def isDatetime (cs : List Char) : Bool :=
  match date? cs with
  | some [] => true
  | some (t :: cs) => (t = 'T' || t = 't' || t = ' ') && (time? cs).any isOffset
  | none => time? cs = some []

/-! ## Any scalar -/

/-- The value that a text without blanks stands for. A date may be followed by a blank and a time. -/
def value? (text : List Char) : Option Value :=
  if text = ['t', 'r', 'u', 'e'] then some (.boolean true)
  else if text = ['f', 'a', 'l', 's', 'e'] then some (.boolean false)
  else match integer? text with
    | some n => some (.integer n)
    | none =>
      if isFloat text then some (.float (String.ofList text))
      else if isDatetime text then some (.datetime (String.ofList text))
      else none

end Scalar

end NixTyping.Toml
