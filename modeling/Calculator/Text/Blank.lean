/-!
# White space

The characters with the Unicode property White_Space (unchanged since version 6.3), and the words
that they separate.
-/

namespace Calculator

/-- The code points of white space, as closed ranges in ascending order. -/
def blankRanges : List (Nat × Nat) :=
  [(0x09, 0x0D), (0x20, 0x20), (0x85, 0x85), (0xA0, 0xA0), (0x1680, 0x1680), (0x2000, 0x200A),
    (0x2028, 0x2029), (0x202F, 0x202F), (0x205F, 0x205F), (0x3000, 0x3000)]

/-- A character is white space. -/
def isBlank (c : Char) : Bool :=
  blankRanges.any fun (first, last) => first ≤ c.toNat && c.toNat ≤ last

namespace Words

/-- Put a word in front of others, unless it is empty. The word is given backwards. -/
def push (word : List Char) (words : List (List Char)) : List (List Char) :=
  if word.isEmpty then words else word.reverse :: words

/-- The words of a text, of which the first one has already been read in part, backwards. -/
def collect (word : List Char) : List Char → List (List Char)
  | [] => push word []
  | c :: rest => if isBlank c then push word (collect [] rest) else collect (c :: word) rest

end Words

/-- The words of a text: the longest runs of characters that are not white space, in order. -/
def words (text : String) : List String :=
  (Words.collect [] text.toList).map String.ofList

/-- A text holds nothing but white space. -/
def isBlankText (text : String) : Bool :=
  text.toList.all isBlank

end Calculator
