/-!
Decimal numbers read from their text.
-/

namespace NixTyping.Decimal

def digitValue (c : Char) : Nat := c.toNat - '0'.toNat

/-- The number that digits stand for. -/
def natOfDigits (cs : List Char) : Nat := cs.foldl (fun n c => 10 * n + digitValue c) 0

/-- A decimal `digits × 10 ^ exponent`. -/
structure Scientific where
  digits : Nat
  exponent : Int

/-- Read digits with an optional fraction and an optional exponent. -/
def scientificOfText (cs : List Char) : Scientific :=
  let whole := cs.takeWhile Char.isDigit
  let rest := cs.drop whole.length
  let fraction := match rest with
    | '.' :: rest => rest.takeWhile Char.isDigit
    | _ => []
  let exponent : Int := match (cs.dropWhile fun c => c ≠ 'e' && c ≠ 'E').drop 1 with
    | '-' :: ds => -(natOfDigits ds)
    | '+' :: ds => natOfDigits ds
    | ds => natOfDigits ds
  ⟨natOfDigits (whole ++ fraction), exponent - fraction.length⟩

/-- How many digits a number has. -/
def digitCount (n : Nat) : Nat := (Nat.toDigits 10 n).length

/-- The nearest double. A decimal whose first digit stands beyond every finite double is infinite, and one that
stands below half the least is zero. -/
def Scientific.toFloat (s : Scientific) : Float :=
  let magnitude := s.exponent + digitCount s.digits
  if s.digits = 0 then 0
  else if 400 < magnitude then 1 / 0
  else if magnitude < -400 then 0
  else Float.ofScientific s.digits (decide (s.exponent < 0)) s.exponent.natAbs

def floatOfText (cs : List Char) : Float := (scientificOfText cs).toFloat

end NixTyping.Decimal
