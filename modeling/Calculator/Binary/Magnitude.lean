/-!
# Magnitudes of doubles

A double is a sign bit and 63 bits of magnitude. Read as a natural number, the magnitude is ordered
as the value is: zero is `0`, the next larger value has the next larger magnitude, and infinity
follows the largest finite value as if it were `2 ^ 1024`. Values are measured in units of
`2 ^ -1074`, the distance between the smallest magnitudes, so that every value is a natural number
of units (`units`).

Rounding a ratio to the nearest double (`nearest`) is then one division: the unit of the last place
is chosen by the size of the ratio, and a carry out of the last place moves to the next exponent by
itself.

## Main definitions

* `roundHalfEven`: the natural number nearest to a ratio.
* `Magnitude.units`: the value of a magnitude.
* `Magnitude.nearest`: the magnitude nearest to a ratio.
-/

namespace Calculator

/-- Round `num / den` to the nearest natural number; a ratio halfway between two goes to the even
one. -/
def roundHalfEven (num den : Nat) : Nat :=
  let quotient := num / den
  let remainder := num % den
  if 2 * remainder < den ∨ (2 * remainder = den ∧ quotient % 2 = 0) then quotient
  else quotient + 1

namespace Magnitude

/-- The units that make up one, `2 ^ 1074` of them. -/
def unitsPerOne : Nat :=
  Nat.pow 2 1074

/-- The magnitude of infinity. Larger magnitudes are not numbers. -/
def infinite : Nat :=
  2047 * Nat.pow 2 52

/-- The value of a magnitude in units: an exponent of zero counts the fraction alone, any other
exponent scales a fraction with its leading bit restored. -/
def units (magnitude : Nat) : Nat :=
  let exponent := magnitude / Nat.pow 2 52
  let fraction := magnitude % Nat.pow 2 52
  if exponent = 0 then fraction else (Nat.pow 2 52 + fraction) * Nat.pow 2 (exponent - 1)

/-- The magnitude nearest to `num / den`, ties to the even magnitude. Ratios from the middle
between the largest finite value and `2 ^ 1024` on become infinite. -/
def nearest (num den : Nat) : Nat :=
  let scaled := num * unitsPerOne
  -- The difference stops at zero: the smallest exponent has no leading bit to keep.
  let place := Nat.log2 (scaled / den) - 52
  -- The leading bit of the rounded quotient counts as one exponent more than `place`.
  min infinite (place * Nat.pow 2 52 + roundHalfEven scaled (den * Nat.pow 2 place))

/-- The non-negative double of a magnitude. -/
def toFloat (magnitude : Nat) : Float :=
  Float.ofBits (UInt64.ofNat magnitude)

/-- The magnitude of a double, its bits without the sign bit. -/
def ofFloat (x : Float) : Nat :=
  x.toBits.toNat % Nat.pow 2 63

/-- The sign bit of a double. -/
def signBit (x : Float) : Bool :=
  Nat.pow 2 63 ≤ x.toBits.toNat

end Magnitude

end Calculator
