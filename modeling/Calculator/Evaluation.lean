import Calculator.Display
import Calculator.Parser

/-!
# Evaluating a text

An evaluation parses a text and takes the value of the expression found. It reports what it did as a
list of events: one for each name that was looked up, in the order of the text, and a last one with
the outcome. Evaluations share nothing but their options.
-/

namespace Calculator

/-- The number of factors that may be open at once unless something else is asked for. -/
def defaultMaxDepth : Nat :=
  256

/-- What an evaluation can be told. -/
structure Options where
  /-- The number of factors that may be open at once. -/
  maxDepth : Nat := defaultMaxDepth
deriving DecidableEq

/-- The outcome of an evaluation. -/
abbrev Outcome : Type :=
  Except Failure Float

/-- What happened during an evaluation. -/
inductive Event where
  /-- A name was looked up. -/
  | resolved (lookup : Parser.Lookup)
  /-- The evaluation of a text gave a value. -/
  | evaluated (input : String) (value : Float)
  /-- The evaluation of a text failed. -/
  | failed (input : String) (failure : Failure)

/-- How much an event matters. -/
inductive Severity where
  /-- A single step of an evaluation. -/
  | trace
  /-- Something that helps to find out what went wrong. -/
  | debug
deriving DecidableEq

namespace Event

/-- What a field of an event holds. -/
inductive Datum where
  | text (text : String)
  | flag (flag : Bool)
  | number (value : Float)
  | position (offset : Nat)

/-- Only failures are more than steps. -/
def severity : Event → Severity
  | .resolved _ => .trace
  | .evaluated _ _ => .trace
  | .failed _ _ => .debug

/-- The wording of an event. -/
def message : Event → String
  | .resolved _ => "resolved identifier"
  | .evaluated _ _ => "evaluated expression"
  | .failed _ _ => "evaluation failed"

/-- The fields of an event, by name. -/
def fields : Event → List (String × Datum)
  | .resolved lookup => [("name", .text lookup.name), ("found", .flag lookup.found)]
  | .evaluated input value => [("input", .text input), ("value", .number value)]
  | .failed input failure =>
    [("input", .text input), ("position", .position failure.position),
      ("error", .text failure.message)]

/-- The event that closes an evaluation of `input`. -/
def closing (input : String) : Outcome → Event
  | .ok value => .evaluated input value
  | .error failure => .failed input failure

end Event

/-- An evaluation that has come to its end. -/
structure Evaluation where
  /-- The value of the text, or why it has none. -/
  outcome : Outcome
  /-- What happened, in order. -/
  events : List Event

/-- Evaluate a text. -/
def Evaluation.of (options : Options) (text : String) : Evaluation :=
  let reply := Parser.parse options.maxDepth text.toList
  let outcome := reply.result.map Expr.value
  ⟨outcome, reply.state.lookups.reverse.map .resolved ++ [.closing text outcome]⟩

/-- The value of a text, or why it has none. -/
def evaluate (options : Options) (text : String) : Outcome :=
  (Evaluation.of options text).outcome

namespace Display

/-- The text shown for every failure. -/
def errorText : String :=
  "Error"

/-- The text of an outcome. -/
def outcome : Outcome → String
  | .ok value => number value
  | .error _ => errorText

/-- The text shown for an expression. -/
def expression (options : Options) (text : String) : String :=
  outcome (evaluate options text)

end Display

end Calculator
