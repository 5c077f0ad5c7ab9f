import Calculator.Evaluation

/-!
# Command-line arguments

What a command line says, and what it leaves behind. How the words of a command line are read is
left to a reader: it makes arguments of them, or it leaves a result behind at once, where they are
misused or ask for nothing that has to be carried out.
-/

namespace Calculator.CommandLine

/-- What the words of a command line say. -/
structure Arguments where
  /-- The content is the path of a file. -/
  file : Bool := false
  /-- The content is a sequence of keys. -/
  keys : Bool := false
  /-- The number of factors that may be open at once. -/
  maxDepth : Nat := defaultMaxDepth
  /-- The content, if there is one. -/
  contents : Option String := none
deriving DecidableEq

/-- How expressions are evaluated. -/
def Arguments.options (a : Arguments) : Options :=
  ⟨a.maxDepth⟩

/-- What a command line leaves behind. -/
structure Result where
  /-- The exit status. -/
  status : UInt32
  /-- What is written to standard output. -/
  output : String
  /-- What is written to standard error. -/
  complaint : String := ""
deriving DecidableEq

/-- Show a text as a line of output. -/
def Result.shown (text : String) : Result :=
  ⟨0, text ++ "\n", ""⟩

/-- Show nothing but a line about what went wrong. -/
def Result.refused (complaint : String) : Result :=
  ⟨1, "", complaint ++ "\n"⟩

/-- A way to read the words of a command line. -/
abbrev Reader : Type :=
  List String → Except Result Arguments

end Calculator.CommandLine
