import Calculator.Builtin
import Calculator.Cursor

/-!
# Parser states

Where a parse stands: a cursor in the text, the number of factors that are open and the number that
may be, and the names looked up so far. The moves on a state are those of its cursor.

## Main results

* `remaining_advance_lt`, `remaining_eat_lt`, `remaining_lookUp_lt`: less is to come once a
  character has been passed.
-/

namespace Calculator.Parser

/-- A name that was looked up. -/
structure Lookup where
  /-- The name. -/
  name : String
  /-- The name is that of a built-in. -/
  found : Bool
deriving DecidableEq

/-- Where a parse stands. -/
structure State where
  /-- The place in the text. -/
  cursor : Cursor
  /-- The number of factors that are open. -/
  depth : Nat
  /-- The number of factors that may be open at once. -/
  limit : Nat
  /-- The names looked up so far, latest first. -/
  lookups : List Lookup
deriving DecidableEq

namespace State

/-- The state in front of a text. -/
def start (limit : Nat) (text : List Char) : State :=
  ⟨.ofText text, 0, limit, []⟩

/-- The number of characters still to come. -/
def remaining (s : State) : Nat :=
  s.cursor.rest.length

/-- The next character. -/
def peek (s : State) : Option Char :=
  s.cursor.peek

/-- Pass the next character. -/
def advance (s : State) : State :=
  { s with cursor := s.cursor.advance }

/-- Pass a run of spaces. -/
def skipSpaces (s : State) : State :=
  { s with cursor := s.cursor.skipSpaces }

/-- Skip spaces, then pass `expected` if it comes next, and say whether it did. -/
def eat (expected : Char) (s : State) : Bool × State :=
  let (eaten, cursor) := s.cursor.eat expected
  (eaten, { s with cursor })

/-- Pass a run of characters. -/
def skipWhile (accept : Char → Bool) (s : State) : State :=
  { s with cursor := (s.cursor.takeWhile accept).2 }

/-- The run of characters that `skipWhile` passes. -/
def run (accept : Char → Bool) (s : State) : List Char :=
  (s.cursor.takeWhile accept).1

/-- Open a factor. -/
def enter (s : State) : State :=
  { s with depth := s.depth + 1 }

/-- Close a factor. -/
def leave (s : State) : State :=
  { s with depth := s.depth - 1 }

/-- The longest run of lowercase letters of ASCII that comes next. -/
def word (s : State) : String :=
  String.ofList (s.run Char.isLower)

/-- Pass the word that comes next, and note that it was looked up. -/
def lookUp (s : State) : State :=
  { s.skipWhile Char.isLower with
    lookups := ⟨s.word, (Builtin.lookup? s.word).isSome⟩ :: s.lookups }

/-- What the next character stands for, if there is one and it stands for anything. -/
def next? {α : Type} (read : Char → Option α) (s : State) : Option α :=
  s.peek.bind read

/-- What eating does, in terms of the other moves. -/
theorem eat_eq (expected : Char) (s : State) :
    s.eat expected =
      if s.skipSpaces.peek = some expected then (true, s.skipSpaces.advance)
      else (false, s.skipSpaces) := by
  by_cases h : s.cursor.skipSpaces.peek = some expected <;>
    simp [eat, Cursor.eat, skipSpaces, peek, advance, h]

/-! ## What is still to come -/

@[simp]
theorem remaining_enter (s : State) : s.enter.remaining = s.remaining := rfl

@[simp]
theorem remaining_leave (s : State) : s.leave.remaining = s.remaining := rfl

/-- Skipping spaces leaves no more to come. -/
theorem remaining_skipSpaces_le (s : State) : s.skipSpaces.remaining ≤ s.remaining :=
  s.cursor.length_rest_skipSpaces_le

/-- Passing a run leaves no more to come. -/
theorem remaining_skipWhile_le (accept : Char → Bool) (s : State) :
    (s.skipWhile accept).remaining ≤ s.remaining :=
  s.cursor.length_rest_takeWhile_le accept

/-- Passing the next character leaves less to come. -/
theorem remaining_advance_lt {s : State} {next : Char} (h : s.peek = some next) :
    s.advance.remaining < s.remaining :=
  s.cursor.length_rest_advance_lt h

/-- Passing a character that stands for something leaves less to come. -/
theorem remaining_advance_lt_of_next? {α : Type} {read : Char → Option α} {s : State} {a : α}
    (h : s.next? read = some a) : s.advance.remaining < s.remaining := by
  obtain ⟨next, hnext, _⟩ := Option.bind_eq_some_iff.mp h
  exact remaining_advance_lt hnext

/-- Trying to eat a character leaves no more to come. -/
theorem remaining_eat_le {expected : Char} {s t : State} {eaten : Bool}
    (h : s.eat expected = (eaten, t)) : t.remaining ≤ s.remaining := by
  rw [eat_eq] at h
  split at h
  next hpeek =>
    obtain ⟨-, rfl⟩ := Prod.mk.inj h
    exact Nat.le_trans (Nat.le_of_lt (remaining_advance_lt hpeek)) s.remaining_skipSpaces_le
  next =>
    obtain ⟨-, rfl⟩ := Prod.mk.inj h
    exact s.remaining_skipSpaces_le

/-- Eating a character leaves less to come. -/
theorem remaining_eat_lt {expected : Char} {s t : State} (h : s.eat expected = (true, t)) :
    t.remaining < s.remaining := by
  rw [eat_eq] at h
  split at h
  next hpeek =>
    obtain ⟨-, rfl⟩ := Prod.mk.inj h
    exact Nat.lt_of_lt_of_le (remaining_advance_lt hpeek) s.remaining_skipSpaces_le
  next => simp at h

/-- Looking up a word that is not empty leaves less to come. -/
theorem remaining_lookUp_lt {s : State} {next : Char} (h : s.peek = some next)
    (hnext : next.isLower = true) : s.lookUp.remaining < s.remaining :=
  s.cursor.length_rest_takeWhile_lt h hnext

end State

end Calculator.Parser
