import Calculator.Decimal.Layout

/-!
# How numbers are displayed

A number is displayed with the fewest digits that read back to it. Zero and magnitudes from `10^-4`
up to but not including `10^16` are written positionally, all others with an exponent. A minus sign
stands in front exactly when the sign bit is set, for zero too.
-/

namespace Calculator.Display

/-- The smallest magnitude other than zero that is written positionally, that of `10^-4`. -/
def positionalFrom : Nat :=
  Magnitude.nearest 1 (Nat.pow 10 4)

/-- The first magnitude that is too large for the positional form, that of `10^16`. -/
def positionalBelow : Nat :=
  Magnitude.nearest (Nat.pow 10 16) 1

/-- The text of a magnitude. -/
def magnitude (m : Nat) : List Char :=
  if Magnitude.infinite < m then "NaN".toList
  else if m = Magnitude.infinite then "Infinity".toList
  else if m = 0 then "0.0".toList
  else if positionalFrom ≤ m ∧ m < positionalBelow then (Decimal.shortest m).positional
  else (Decimal.shortest m).scientific

/-- The text of a number. What is not a number has no sign. -/
def number (x : Float) : String :=
  let m := Magnitude.ofFloat x
  let sign := if Magnitude.signBit x ∧ m ≤ Magnitude.infinite then ['-'] else []
  String.ofList (sign ++ magnitude m)

end Calculator.Display
