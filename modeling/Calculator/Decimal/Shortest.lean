import Calculator.Binary.Magnitude

/-!
# The shortest decimal that reads back

A magnitude stands for every real that rounds to it: an interval from the middle to the value below
to the middle to the value above, whose ends belong to it exactly when the magnitude is even. Among
the decimals of that interval this module selects one with the fewest digits, and of those the one
nearest to the value; of two equally near ones it takes the larger.

All comparisons are exact. They are made on natural numbers of steps of `10 ^ -1074`, in which every
value of a double is a whole number. The selection walks from the coarsest grid of decimals, the
powers of ten at the leading digit, towards the finest. On the finest grid, that of the steps
themselves, the value is itself a grid point, so the walk always ends with a decimal of the
interval.

## Main definitions

* `Decimal.roundsTo`: the interval of a magnitude.
* `Decimal.onGrid?`: the nearest decimal of the interval on one grid.
* `Decimal.shortest`: the shortest decimal of the interval, and the nearest of the shortest.
-/

namespace Calculator

/-- A positive decimal numeral `0.d₁d₂… × 10 ^ point`, its digits written as characters. -/
structure Decimal where
  /-- The digits, most significant first. -/
  digits : List Char
  /-- The number of digits in front of the decimal point; negative if zeros follow the point
  before the first digit. -/
  point : Int
deriving DecidableEq

namespace Decimal

/-- One unit of a magnitude, counted in steps of `10 ^ -1074`. -/
def stepsPerUnit : Nat :=
  Nat.pow 5 1074

/-- The value of a magnitude in steps. -/
def steps (magnitude : Nat) : Nat :=
  Magnitude.units magnitude * stepsPerUnit

/-- The given number of steps rounds to the magnitude: it lies between the middles to the two
neighbours, or on one of them if the magnitude is even. -/
def roundsTo (magnitude candidate : Nat) : Bool :=
  let lower := steps (magnitude - 1) + steps magnitude
  let upper := steps magnitude + steps (magnitude + 1)
  if magnitude % 2 = 0 then lower ≤ 2 * candidate && 2 * candidate ≤ upper
  else lower < 2 * candidate && 2 * candidate < upper

/-- The multiple of `10 ^ place` steps nearest to the magnitude among those that round to it, the
larger one on a tie. Only the two multiples around the value can be nearest, so only they are
tried. -/
def onGrid? (magnitude place : Nat) : Option Nat :=
  let grid := Nat.pow 10 place
  let value := steps magnitude
  let below := value / grid
  let above := below + 1
  match roundsTo magnitude (below * grid), roundsTo magnitude (above * grid) with
  | true, true => some (if 2 * value < below * grid + above * grid then below else above)
  | true, false => some below
  | false, true => some above
  | false, false => none

/-- The first grid that offers a decimal, from `10 ^ place` steps downwards, and that decimal as a
multiple of its grid. -/
def coarsest (magnitude : Nat) : (place : Nat) → Nat × Nat
  -- The value is a whole number of steps, so the finest grid always offers it.
  | 0 => (steps magnitude, 0)
  | place + 1 =>
    match onGrid? magnitude (place + 1) with
    | some multiple => (multiple, place + 1)
    | none => coarsest magnitude place

/-- A digit string without the zeros at its end. -/
def trimZeros (digits : List Char) : List Char :=
  (digits.reverse.dropWhile (· == '0')).reverse

/-- The decimal `multiple × 10 ^ place` steps, without zeros at its end. -/
def ofSteps (multiple place : Nat) : Decimal :=
  let digits := Nat.toDigits 10 multiple
  ⟨trimZeros digits, (digits.length + place : Nat) - 1074⟩

/-- The shortest decimal that rounds to a finite magnitude other than zero. -/
def shortest (magnitude : Nat) : Decimal :=
  let leading := (Nat.toDigits 10 (steps magnitude)).length - 1
  let (multiple, place) := coarsest magnitude leading
  ofSteps multiple place

end Decimal

end Calculator
