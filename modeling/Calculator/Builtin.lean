/-!
# Built-in names

The constants and the functions of one argument that an expression may name. A name is looked up
whole: a name that merely starts with that of a built-in is unknown. Trigonometric functions take
degrees.

## Main results

* `lookup?_eq_some_iff`: looking up finds exactly the built-in with the name asked for.
-/

namespace Calculator

/-- The named numbers. -/
inductive Constant where
  | pi
  | e
deriving DecidableEq

/-- The double nearest to the number named. -/
def Constant.value : Constant → Float
  | .pi => Float.ofBits 0x400921fb54442d18
  | .e => Float.ofBits 0x4005bf0a8b145769

/-- The named functions of one argument. -/
inductive UnaryFunction where
  | sqrt
  | sin
  | cos
  | tan
  | ln
  | log
  | exp
  | abs
deriving DecidableEq

/-- The double nearest to the number of radians in a degree. -/
def radiansPerDegree : Float :=
  Float.ofBits 0x3f91df46a2529d39

/-- An angle in degrees, in radians. -/
def radians (degrees : Float) : Float :=
  degrees * radiansPerDegree

/-- Apply a function; `ln` is the natural logarithm and `log` the decimal one. -/
def UnaryFunction.apply : UnaryFunction → Float → Float
  | .sqrt, x => x.sqrt
  | .sin, x => (radians x).sin
  | .cos, x => (radians x).cos
  | .tan, x => (radians x).tan
  | .ln, x => x.log
  | .log, x => x.log10
  | .exp, x => x.exp
  | .abs, x => x.abs

/-- What a name can stand for. -/
inductive Builtin where
  | constant (c : Constant)
  | function (f : UnaryFunction)
deriving DecidableEq

namespace Builtin

/-- Every built-in, functions first. -/
def all : List Builtin :=
  [.function .sqrt, .function .sin, .function .cos, .function .tan, .function .ln, .function .log,
    .function .exp, .function .abs, .constant .pi, .constant .e]

/-- The name of a built-in. -/
def name : Builtin → String
  | .function .sqrt => "sqrt"
  | .function .sin => "sin"
  | .function .cos => "cos"
  | .function .tan => "tan"
  | .function .ln => "ln"
  | .function .log => "log"
  | .function .exp => "exp"
  | .function .abs => "abs"
  | .constant .pi => "pi"
  | .constant .e => "e"

/-- Every name, in the order of the built-ins. -/
def names : List String :=
  all.map name

/-- The built-in of a name, if the whole name is one. -/
def lookup? (name : String) : Option Builtin :=
  all.find? (·.name == name)

/-- Every built-in is found under its name. -/
theorem lookup?_name (b : Builtin) : lookup? b.name = some b := by
  obtain c | f := b
  · cases c <;> rfl
  · cases f <;> rfl

/-- Looking up finds exactly the built-in with the name asked for. -/
theorem lookup?_eq_some_iff {name : String} {b : Builtin} :
    lookup? name = some b ↔ b.name = name := by
  constructor
  · intro h
    simpa using List.find?_some h
  · rintro rfl
    exact lookup?_name b

end Builtin

end Calculator
