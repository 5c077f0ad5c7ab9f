/-!
# Lines

Cutting a sequence into lines. A line ends with a line feed, or with a carriage return and a line
feed; only one carriage return belongs to the end of a line. What follows the last line feed is a
line too if there is anything, and is kept as it is.

The sequence may consist of characters or of bytes. Bytes are cut before they are decoded, so that
bytes which are no text spoil only the line they stand in.
-/

namespace Calculator.Lines

variable {α : Type} [DecidableEq α]

/-- A line without the carriage return at its end, if it has one. The line is given backwards. -/
def finish (carriageReturn : α) : List α → List α
  | [] => []
  | last :: line => if last = carriageReturn then line.reverse else (last :: line).reverse

/-- The lines of a sequence, of which the first one has already been read in part, backwards. -/
def collect (lineFeed carriageReturn : α) (line : List α) : List α → List (List α)
  | [] => if line.isEmpty then [] else [line.reverse]
  | x :: rest =>
    if x = lineFeed then finish carriageReturn line :: collect lineFeed carriageReturn [] rest
    else collect lineFeed carriageReturn (x :: line) rest

/-- The lines of a text. -/
def ofText (text : String) : List String :=
  (collect '\n' '\r' [] text.toList).map String.ofList

/-- The text that bytes encode in UTF-8, if they do. -/
def decode? (bytes : List UInt8) : Option String :=
  String.fromUTF8? ⟨bytes.toArray⟩

/-- The texts at the front of a list of encoded texts, up to the first that is no text. -/
def decodeWhile : List (List UInt8) → List String
  | [] => []
  | bytes :: rest =>
    match decode? bytes with
    | some text => text :: decodeWhile rest
    | none => []

/-- The lines of encoded text, up to the first line that is not UTF-8. -/
def ofBytes (bytes : List UInt8) : List String :=
  decodeWhile (collect 10 13 [] bytes)

end Calculator.Lines
