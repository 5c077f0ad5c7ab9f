/-!
# Cursors

A text under reading, cut in two: the characters already passed and the characters still to come.
Every move takes characters from the front of the second part to the first, so a cursor can neither
lose nor repeat a character of its text. Positions are byte offsets in UTF-8; they fall between two
characters, because they are the byte length of what has been passed.

## Main definitions

* `Cursor.advance`, `Cursor.skipSpaces`, `Cursor.eat`, `Cursor.takeWhile`: the moves.
* `Cursor.source`, `Cursor.position`: the whole text, and the place in it.

## Main results

* `source_advance`, `source_skipSpaces`, `source_eat`, `source_takeWhile`: moves keep the text.
* `length_rest_advance_lt`, `length_rest_takeWhile_lt`: moves that pass a character leave less to
  come.
-/

namespace Calculator

/-- The number of bytes that a text takes in UTF-8. -/
def byteLength (text : List Char) : Nat :=
  text.foldr (fun c bytes => c.utf8Size + bytes) 0

@[simp]
theorem byteLength_nil : byteLength [] = 0 := rfl

@[simp]
theorem byteLength_cons (c : Char) (text : List Char) :
    byteLength (c :: text) = c.utf8Size + byteLength text := rfl

/-- A place in a text, between what has been passed and what is still to come. -/
structure Cursor where
  /-- The characters already passed, nearest first. -/
  passed : List Char
  /-- The characters still to come. -/
  rest : List Char
deriving DecidableEq

namespace Cursor

/-- The cursor in front of a text. -/
def ofText (text : List Char) : Cursor :=
  ⟨[], text⟩

/-- The whole text that the cursor stands in. -/
def source (c : Cursor) : List Char :=
  c.passed.reverse ++ c.rest

/-- The byte offset of the cursor in its text. -/
def position (c : Cursor) : Nat :=
  byteLength c.passed

/-- The next character, if there is one. -/
def peek (c : Cursor) : Option Char :=
  c.rest.head?

/-- Nothing is left to come. -/
def atEnd (c : Cursor) : Bool :=
  c.rest.isEmpty

/-- Pass the next character, if there is one. -/
def advance : Cursor → Cursor
  | ⟨passed, next :: rest⟩ => ⟨next :: passed, rest⟩
  | ⟨passed, []⟩ => ⟨passed, []⟩

/-- Pass the longest run of characters that `accept` holds of, and hand out that run. -/
def takeWhile (accept : Char → Bool) (c : Cursor) : List Char × Cursor :=
  let run := c.rest.takeWhile accept
  (run, ⟨run.reverse ++ c.passed, c.rest.dropWhile accept⟩)

/-- Pass a run of spaces (U+0020 only). -/
def skipSpaces (c : Cursor) : Cursor :=
  (c.takeWhile (· == ' ')).2

/-- Skip spaces, then pass `expected` if it comes next, and say whether it did. The spaces stay
skipped either way. -/
def eat (expected : Char) (c : Cursor) : Bool × Cursor :=
  let c := c.skipSpaces
  if c.peek = some expected then (true, c.advance) else (false, c)

/-! ## Moves keep the text -/

@[simp]
theorem source_ofText (text : List Char) : (ofText text).source = text := by
  simp [source, ofText]

@[simp]
theorem source_advance (c : Cursor) : c.advance.source = c.source := by
  obtain ⟨passed, _ | ⟨next, rest⟩⟩ := c <;> simp [source, advance]

@[simp]
theorem source_takeWhile (accept : Char → Bool) (c : Cursor) :
    (c.takeWhile accept).2.source = c.source := by
  simp [source, takeWhile]

@[simp]
theorem source_skipSpaces (c : Cursor) : c.skipSpaces.source = c.source :=
  source_takeWhile _ c

@[simp]
theorem source_eat (expected : Char) (c : Cursor) : (c.eat expected).2.source = c.source := by
  unfold eat
  dsimp only
  split <;> simp

/-! ## Moves shorten what is to come -/

/-- Passing the next character leaves less to come. -/
theorem length_rest_advance_lt {c : Cursor} {next : Char} (h : c.peek = some next) :
    c.advance.rest.length < c.rest.length := by
  obtain ⟨passed, _ | ⟨head, rest⟩⟩ := c
  · simp [peek] at h
  · simp [advance]

/-- Passing a run leaves no more to come. -/
theorem length_rest_takeWhile_le (accept : Char → Bool) (c : Cursor) :
    (c.takeWhile accept).2.rest.length ≤ c.rest.length :=
  (List.dropWhile_suffix accept).length_le

/-- Passing a run that is not empty leaves less to come. -/
theorem length_rest_takeWhile_lt {accept : Char → Bool} {c : Cursor} {next : Char}
    (h : c.peek = some next) (hnext : accept next = true) :
    (c.takeWhile accept).2.rest.length < c.rest.length := by
  obtain ⟨passed, _ | ⟨head, rest⟩⟩ := c
  · simp [peek] at h
  · obtain rfl : head = next := by simpa [peek] using h
    have hle := (List.dropWhile_suffix (l := rest) accept).length_le
    simp only [takeWhile, List.dropWhile_cons, hnext, if_true, List.length_cons]
    omega

/-- Skipping spaces leaves no more to come. -/
theorem length_rest_skipSpaces_le (c : Cursor) : c.skipSpaces.rest.length ≤ c.rest.length :=
  length_rest_takeWhile_le _ c

end Cursor

end Calculator
