import Calculator.Builtin
import Calculator.Numeral

/-!
# Expressions

The syntax trees of the calculator and their meaning. Operators on one level of precedence associate
to the left, so a chain of them is a tree that leans to the left. Signs and functions apply to a
whole factor, powers included.
-/

namespace Calculator

/-- The binary operators apart from powers. -/
inductive Operator where
  | add
  | subtract
  | multiply
  | divide
deriving DecidableEq

/-- The meaning of an operator. Dividing by zero gives an infinity or no number, as doubles do. -/
def Operator.apply : Operator → Float → Float → Float
  | .add, x, y => x + y
  | .subtract, x, y => x - y
  | .multiply, x, y => x * y
  | .divide, x, y => x / y

/-- The two levels of precedence of the binary operators. -/
inductive Level where
  /-- Addition and subtraction. -/
  | sum
  /-- Multiplication and division, which bind more tightly. -/
  | product
deriving DecidableEq

/-- The operator that a character writes on a level. -/
def Level.operator? : Level → Char → Option Operator
  | .sum, '+' => some .add
  | .sum, '-' => some .subtract
  | .product, '*' => some .multiply
  | .product, '/' => some .divide
  | _, _ => none

/-- The signs that may stand in front of a factor. -/
inductive Sign where
  | plus
  | minus
deriving DecidableEq

namespace Sign

/-- The sign that a character writes. -/
def ofChar? : Char → Option Sign
  | '+' => some .plus
  | '-' => some .minus
  | _ => none

/-- The meaning of a sign. -/
def apply : Sign → Float → Float
  | .plus, x => x
  | .minus, x => -x

end Sign

/-- Expressions, as written: groups keep their parentheses. -/
inductive Expr where
  | numeral (n : Numeral)
  | constant (c : Constant)
  | group (inner : Expr)
  | signed (sign : Sign) (operand : Expr)
  | call (f : UnaryFunction) (argument : Expr)
  | power (base exponent : Expr)
  | binary (op : Operator) (left right : Expr)
deriving DecidableEq

namespace Expr

/-- The value of an expression. Every expression has one; what is undefined is not a number. -/
def value : Expr → Float
  | .numeral n => n.value
  | .constant c => c.value
  | .group inner => inner.value
  | .signed sign operand => sign.apply operand.value
  | .call f argument => f.apply argument.value
  | .power base exponent => base.value.pow exponent.value
  | .binary op left right => op.apply left.value right.value

/-- The number of factors that are open at once where the expression is nested deepest. -/
def nest : Expr → Nat
  | .numeral _ => 1
  | .constant _ => 1
  | .group inner => 1 + inner.nest
  | .signed _ operand => 1 + operand.nest
  | .call _ argument => 1 + argument.nest
  -- The factor that starts with the base stays open while the exponent is read.
  | .power base exponent => max base.nest (1 + exponent.nest)
  | .binary _ left right => max left.nest right.nest

end Expr

end Calculator
