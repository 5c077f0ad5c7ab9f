import Calculator.Binary.Magnitude

/-!
# Numerals

The numbers that an expression can write: decimal digits with at most one point. A run of digits and
points is read as a whole, and is a numeral exactly if it has a digit and no second point. Its value
is the double nearest to the number denoted, however long the run.
-/

namespace Calculator

/-- A character that numerals are written with: a decimal digit of ASCII or a point. -/
def isNumeralChar (c : Char) : Bool :=
  c.isDigit || c == '.'

/-- The number `digits / 10 ^ places`. -/
structure Numeral where
  /-- All digits as one natural number. -/
  digits : Nat
  /-- The number of digits behind the point. -/
  places : Nat
deriving DecidableEq

namespace Numeral

/-- The numeral with the given digits in front of the point and behind it, if there are any. -/
def ofParts? (whole fraction : List Char) : Option Numeral :=
  if whole.isEmpty && fraction.isEmpty then none
  else some ⟨Nat.ofDigitChars 10 (whole ++ fraction) 0, fraction.length⟩

/-- Read a run of digits and points. Digits may be missing in front of the point or behind it, but
not on both sides. -/
def ofRun? (run : List Char) : Option Numeral :=
  let whole := run.takeWhile Char.isDigit
  match run.dropWhile Char.isDigit with
  | [] => ofParts? whole []
  | '.' :: fraction => if fraction.all Char.isDigit then ofParts? whole fraction else none
  | _ => none

/-- The double nearest to the number denoted, ties to even; infinity if it is too large. -/
def value (n : Numeral) : Float :=
  Magnitude.toFloat (Magnitude.nearest n.digits (Nat.pow 10 n.places))

end Numeral

end Calculator
