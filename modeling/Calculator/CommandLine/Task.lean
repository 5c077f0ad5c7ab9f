import Calculator.CommandLine.Reader
import Calculator.Keypad
import Calculator.Text.Blank
import Calculator.Text.Lines

/-!
# What a command line does

A command line asks for one task: to evaluate an expression, to press keys, or to evaluate the lines
of a file or of standard input. What a task shows depends on nothing but the options and the bytes
it reads; nothing is shown before the task has come to its end. How the words of the command line
are read is a parameter (`runWith`).
-/

namespace Calculator.CommandLine

/-- What the arguments ask for. -/
inductive Task where
  /-- Evaluate an expression. -/
  | expression (text : String)
  /-- Press the keys whose labels are given, separated by white space. -/
  | keys (labels : String)
  /-- Evaluate the lines of a file. -/
  | file (path : String)
  /-- Evaluate the lines of standard input. -/
  | standardInput
deriving DecidableEq

/-- The task of some arguments. Flags mean nothing where there is no content. -/
def Arguments.task (a : Arguments) : Task :=
  match a.contents with
  | none => .standardInput
  | some contents =>
    if a.keys then .keys contents else if a.file then .file contents else .expression contents

/-- The keys with some labels, or the first label that no key has. -/
def keysOf : List String → Except String (List Key)
  | [] => .ok []
  | label :: labels => do
    match Key.ofLabel? label with
    | some key => return key :: (← keysOf labels)
    | none => throw label

/-- Press keys on a new keypad and show its display. One unknown label and no key is pressed. -/
def pressLabels (options : Options) (labels : String) : Result :=
  match keysOf (words labels) with
  | .ok keys => .shown (({ options } : Keypad).pressAll keys).display
  | .error label => .refused ("Unknown key '" ++ label ++ "'.")

/-- Evaluate all lines that hold more than white space, and show a line for each. -/
def evaluateLines (options : Options) (lines : List String) : Result :=
  let expressions := lines.filter (!isBlankText ·)
  ⟨0, String.join (expressions.map fun line => Display.expression options line ++ "\n"), ""⟩

/-- Evaluate the lines of a file, given its bytes if it can be read. All of it must be UTF-8. -/
def evaluateFile (options : Options) (path : String) (content : Option (List UInt8)) : Result :=
  match content.bind Lines.decode? with
  | some text => evaluateLines options (Lines.ofText text)
  | none => .refused
      ("Failed to read the input file '" ++ path ++ "'. Perhaps this file does not exist?")

/-- Evaluate the lines of standard input, up to the first one that is not UTF-8. -/
def evaluateInput (options : Options) (input : List UInt8) : Result :=
  evaluateLines options (Lines.ofBytes input)

/-- Carry out a task, given the bytes of standard input and of the files that can be read. -/
def Task.perform (options : Options) (input : List UInt8) (files : String → Option (List UInt8)) :
    Task → Result
  | .expression text => .shown (Display.expression options text)
  | .keys labels => pressLabels options labels
  | .file path => evaluateFile options path (files path)
  | .standardInput => evaluateInput options input

/-- Run a command line, given a way to read its words, and the bytes of standard input and of the
files that can be read. -/
def runWith (read : Reader) (words : List String) (input : List UInt8)
    (files : String → Option (List UInt8)) : Result :=
  match read words with
  | .error result => result
  | .ok a => a.task.perform a.options input files

/-- Run a command line. -/
def run : List String → List UInt8 → (String → Option (List UInt8)) → Result :=
  runWith readWords

end Calculator.CommandLine
