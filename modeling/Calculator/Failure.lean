/-!
# Failures

Why and where an expression could not be evaluated. There are only these causes: whatever happens to
the numbers, an expression that is well formed and not nested too deeply has a value.
-/

namespace Calculator

namespace Failure

/-- Why an evaluation failed. -/
inductive Cause where
  /-- No operand starts with this character. -/
  | unexpectedCharacter (found : Char)
  /-- The text ended where an operand was due. -/
  | unexpectedEnd
  /-- A group was not closed where its expression ended. -/
  | unclosedGroup
  /-- A complete expression was followed by something else. -/
  | trailingInput (rest : String)
  /-- A name is not that of a built-in. -/
  | unknownName (name : String)
  /-- A run of digits and points has no digit or a second point. -/
  | malformedNumeral (literal : String)
  /-- More factors would be open at once than are allowed. -/
  | nestingTooDeep (limit : Nat)
deriving DecidableEq

/-- The kinds of causes. -/
inductive Kind where
  /-- The text breaks the rules of the grammar. -/
  | grammar
  /-- A name is unknown. -/
  | name
  /-- A numeral is malformed. -/
  | numeral
  /-- A limit was reached. -/
  | resource
deriving DecidableEq

namespace Cause

/-- The kind of a cause. -/
def kind : Cause → Kind
  | .unexpectedCharacter _ => .grammar
  | .unexpectedEnd => .grammar
  | .unclosedGroup => .grammar
  | .trailingInput _ => .grammar
  | .unknownName _ => .name
  | .malformedNumeral _ => .numeral
  | .nestingTooDeep _ => .resource

/-- The wording of a cause. Texts are quoted as they are, without escapes. -/
def message : Cause → String
  | .unexpectedCharacter found => "Unexpected character '" ++ String.singleton found ++ "'."
  | .unexpectedEnd => "Unexpected end of input."
  | .unclosedGroup => "Expected closing parenthesis ')' but none found."
  | .trailingInput rest => "Extra input after expression: " ++ rest
  | .unknownName name => "Unknown function or constant '" ++ name ++ "'."
  | .malformedNumeral literal => "Malformed number '" ++ literal ++ "'."
  | .nestingTooDeep limit => "Expression nested deeper than " ++ toString limit ++ " levels."

end Cause

end Failure

/-- A failed evaluation. -/
structure Failure where
  /-- Why it failed. -/
  cause : Failure.Cause
  /-- The byte offset in the text at which the failure was detected. -/
  position : Nat
deriving DecidableEq

/-- The failure in words. -/
def Failure.message (f : Failure) : String :=
  "Error at position " ++ toString f.position ++ ": " ++ f.cause.message

end Calculator
