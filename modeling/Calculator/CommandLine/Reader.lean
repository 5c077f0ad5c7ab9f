import Calculator.CommandLine.Arguments

/-!
# A reader of words

One way to read the words of a command line: flags, a nesting limit, and at most one word of
content, which is an expression, a sequence of keys or the path of a file. Expressions may start
with a sign, so a word that starts with a hyphen and is not made of known flags is the content.

* Flags have a long name, and a letter that may be joined with others (`-kv`).
* The limit follows `--max-depth` as the next word or after an equals sign.
* After `--` every word is content.

The words are read from left to right. Reading stops at the first word that breaks a rule, or that
asks for the version or for help. What is said about misuse, and the text of the help, are left out.

The program runs with this reader. What is proved about command lines holds with any other one.
-/

namespace Calculator.CommandLine

/-- The flags. -/
inductive Flag where
  /-- The content is the path of a file to evaluate line by line. -/
  | file
  /-- The content is a sequence of keys. -/
  | keys
  /-- Say more about what is going on. -/
  | verbose
  /-- Show the version and stop. -/
  | version
  /-- Show help and stop. -/
  | help
deriving DecidableEq

namespace Flag

/-- The flag with a long name. -/
def ofName? : String → Option Flag
  | "file" => some .file
  | "keys" => some .keys
  | "verbose" => some .verbose
  | "version" => some .version
  | "help" => some .help
  | _ => none

/-- The flag with a letter. -/
def ofLetter? : Char → Option Flag
  | 'f' => some .file
  | 'k' => some .keys
  | 'v' => some .verbose
  | 'V' => some .version
  | 'h' => some .help
  | _ => none

end Flag

/-- Why the arguments ask for nothing to be evaluated. -/
inductive Stop where
  /-- They break a rule. -/
  | misuse
  /-- They ask for the version. -/
  | version
  /-- They ask for help. -/
  | help
deriving DecidableEq

/-- What is left behind where nothing is evaluated. -/
def Stop.result : Stop → Result
  | .misuse => ⟨2, "", ""⟩
  | .version => .shown "scical 0.1.0"
  | .help => ⟨0, "", ""⟩

/-- What has been read of a command line. -/
structure Reading where
  /-- The content is the path of a file. -/
  file : Bool := false
  /-- The content is a sequence of keys. -/
  keys : Bool := false
  /-- The nesting limit, if one is given. -/
  maxDepth : Option Nat := none
  /-- The content, if there is one. -/
  contents : Option String := none

/-- The natural number below `2 ^ 64` that a word writes: digits, after a plus sign or not. -/
def limit? (word : String) : Option Nat :=
  let digits := match word.toList with
    | '+' :: digits => digits
    | digits => digits
  if digits.isEmpty || !digits.all Char.isDigit then none
  else
    let n := Nat.ofDigitChars 10 digits 0
    if n < Nat.pow 2 64 then some n else none

namespace Reading

/-- Take a word as the content. There is only one. -/
def setContents (r : Reading) (word : String) : Except Stop Reading :=
  if r.contents.isSome then .error .misuse else .ok { r with contents := some word }

/-- Take a word as the nesting limit. It may be given once. -/
def setMaxDepth (r : Reading) (word : String) : Except Stop Reading :=
  match r.maxDepth, limit? word with
  | none, some limit => .ok { r with maxDepth := some limit }
  | _, _ => .error .misuse

/-- Set a flag. Only asking for more messages may be repeated. -/
def raise (r : Reading) : Flag → Except Stop Reading
  | .file => if r.file then .error .misuse else .ok { r with file := true }
  | .keys => if r.keys then .error .misuse else .ok { r with keys := true }
  | .verbose => .ok r
  | .version => .error .version
  | .help => .error .help

/-- Set the flag of a letter. -/
def raiseLetter (r : Reading) (letter : Char) : Except Stop Reading :=
  match Flag.ofLetter? letter with
  | some flag => r.raise flag
  | none => .error .misuse

/-- Read a word that starts with two hyphens; `name` is what follows them. A value after an equals
sign is for the limit only. -/
def readLong (r : Reading) (word : String) (name : List Char) : Except Stop Reading :=
  let key := String.ofList (name.takeWhile (· != '='))
  let value := name.dropWhile (· != '=')
  if key = "max-depth" then r.setMaxDepth (String.ofList (value.drop 1))
  else
    match Flag.ofName? key with
    | some flag => if value.isEmpty then r.raise flag else .error .misuse
    | none => r.setContents word

/-- Read a word that starts with one hyphen and goes on with `letters`. Unless there is content
already, an unknown letter makes the word the content. -/
def readLetters (r : Reading) (word : String) (letters : List Char) : Except Stop Reading :=
  if r.contents.isNone && letters.any (fun letter => (Flag.ofLetter? letter).isNone) then
    r.setContents word
  else letters.foldlM raiseLetter r

/-- Read a word that needs no other. A hyphen alone is content. -/
def readWord (r : Reading) (word : String) : Except Stop Reading :=
  match word.toList with
  | '-' :: '-' :: name => r.readLong word name
  | '-' :: letter :: letters => r.readLetters word (letter :: letters)
  | _ => r.setContents word

/-- Read the words of a command line. -/
def read (r : Reading) : List String → Except Stop Reading
  | [] => .ok r
  | word :: rest =>
    if word = "--" then rest.foldlM setContents r
    else if word = "--max-depth" then
      -- The next word is the limit even if it looks like a flag; it is refused as a number then.
      match rest with
      | [] => .error .misuse
      | limit :: rest => do read (← r.setMaxDepth limit) rest
    else do read (← r.readWord word) rest

/-- What has been read, at the end. The content cannot be a file and keys at once. -/
def arguments (r : Reading) : Except Stop Arguments :=
  if r.file && r.keys then .error .misuse
  else .ok ⟨r.file, r.keys, r.maxDepth.getD defaultMaxDepth, r.contents⟩

end Reading

/-- Read the words of a command line. -/
def readWords : Reader := fun words =>
  ((Reading.read {} words).bind Reading.arguments).mapError Stop.result

end Calculator.CommandLine
