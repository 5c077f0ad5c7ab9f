import Calculator.Decimal.Shortest

/-!
# Laying out a decimal

The two written forms of a decimal. The positional form always shows a digit on either side of the
point, so that a whole number reads `14.0`. The scientific form has one digit in front of the point,
leaves the point out when no digit follows it, and writes the exponent without a plus sign.
-/

namespace Calculator

/-- An integer in decimal, with a minus sign if it is negative. -/
def integerText (n : Int) : List Char :=
  if n < 0 then '-' :: Nat.toDigits 10 n.natAbs else Nat.toDigits 10 n.natAbs

namespace Decimal

/-- The decimal with all its places written out, such as `1250.0` or `0.00125`. -/
def positional (d : Decimal) : List Char :=
  let whole := d.point.toNat
  if d.point ≤ 0 then
    ['0', '.'] ++ List.replicate d.point.natAbs '0' ++ d.digits
  else if d.digits.length ≤ whole then
    d.digits ++ List.replicate (whole - d.digits.length) '0' ++ ['.', '0']
  else
    d.digits.take whole ++ ['.'] ++ d.digits.drop whole

/-- The decimal with an exponent, such as `1e16` or `1.25e-7`. -/
def scientific (d : Decimal) : List Char :=
  let fraction := if d.digits.length ≤ 1 then [] else '.' :: d.digits.drop 1
  d.digits.take 1 ++ fraction ++ ['e'] ++ integerText (d.point - 1)

end Decimal

end Calculator
