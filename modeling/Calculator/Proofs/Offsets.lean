import Calculator.Proofs.Passing

/-!
# Cursors as byte offsets

A cursor holds its text in two parts. All that has to be kept besides the text is one number, the
position: it falls between two characters, whichever moves have led to it, so the text can be cut
there, and what is cut off is what is still to come. Between the positions before and after a move
lies what the move has passed, and what all moves have passed is, in order, the text up to where
they have led. This holds for characters of any length in bytes.

So a cursor may as well be a text and a byte offset (`ByteCursor`). Such a cursor looks at its text
through slices, and there is no slice at an offset inside of a character. No move ever leads there,
though: a byte offset makes the moves of the cursor of two parts (`Cursor.make?_toBytes`).

What a move passes is said without the move: nothing or the next character, or a longest run of a
class of characters.

## Main definitions

* `slice?`: the part of a text between two byte offsets, if there is one.
* `LongestRun`: the longest run of a class of characters at the front of a text.
* `Cursor.Move`, `Cursor.make`, `Cursor.makeAll`, `Cursor.Answer`: moves as data, and what they say.
* `Cursor.Move.Takes`: what a move passes and says.
* `Cursor.StandsIn`, `Cursor.Travels`: where a cursor may stand, and sequences of moves with the
  texts that they pass.
* `ByteCursor`, `ByteCursor.make?`: a text and a byte offset, with moves that may fail.
* `ByteCursor.Stands`, `ByteCursor.Travels`: the same for a byte offset.

## Main results

* `slice?_eq_some_iff`: a text has a part between two offsets where it can be cut at both.
* `Cursor.exists_passes_make`: what every single move passes.
* `Cursor.make?_toBytes`: the moves of a byte offset do not fail.
* `Cursor.exists_travels`: cursors neither lose nor repeat any part of their text.
-/

namespace Calculator

/-! ### Parts of a text -/

/-- The part of a text between two byte offsets. There is none unless both offsets fall between two
characters and are in order. -/
def slice? (text : String) (start stop : Nat) : Option String :=
  if h : (String.Pos.Raw.mk start).IsValid text ∧ (String.Pos.Raw.mk stop).IsValid text ∧
      start ≤ stop then
    some (String.extract (text.pos ⟨start⟩ h.1) (text.pos ⟨stop⟩ h.2.1))
  else none

/-- Where two parts of a text meet, there is a boundary between characters. -/
theorem isValid_byteLength (front back : List Char) :
    (String.Pos.Raw.mk (byteLength front)).IsValid (String.ofList (front ++ back)) := by
  rw [String.Pos.Raw.isValid_iff_exists_append]
  refine ⟨String.ofList front, String.ofList back, String.ofList_append, ?_⟩
  rw [String.Pos.Raw.ext_iff, String.byteIdx_rawEndPos, utf8ByteSize_ofList]

theorem exists_append_of_isValid {text : String} {offset : Nat}
    (h : (String.Pos.Raw.mk offset).IsValid text) :
    ∃ front back, text.toList = front ++ back ∧ byteLength front = offset := by
  obtain ⟨front, back, rfl, hoffset⟩ := String.Pos.Raw.isValid_iff_exists_append.mp h
  refine ⟨front.toList, back.toList, String.toList_append, ?_⟩
  rw [← utf8ByteSize_ofList, String.ofList_toList]
  exact (congrArg String.Pos.Raw.byteIdx hoffset).symm

/-- A text is cut where its parts meet. -/
theorem slice?_append (front middle back : List Char) :
    slice? (String.ofList (front ++ (middle ++ back))) (byteLength front)
      (byteLength (front ++ middle)) = some (String.ofList middle) := by
  have hstart := isValid_byteLength front (middle ++ back)
  have hstop := isValid_byteLength (front ++ middle) back
  have hsize : ∀ w : List Char, (String.ofList w).toByteArray.size = byteLength w := fun w => by
    rw [String.size_toByteArray, utf8ByteSize_ofList]
  rw [List.append_assoc] at hstop
  rw [slice?, dif_pos ⟨hstart, hstop, by simp⟩, Option.some.injEq, ← String.toByteArray_inj,
    String.toByteArray_extract]
  show (String.ofList (front ++ (middle ++ back))).toByteArray.extract (byteLength front)
    (byteLength (front ++ middle)) = _
  -- The bytes of the front are left out first, and then those behind the middle.
  rw [String.ofList_append, String.ofList_append, String.toByteArray_append,
    String.toByteArray_append, byteLength_append, ← Nat.add_zero (byteLength front), Nat.add_assoc,
    ByteArray.extract_append_size_add' (hsize front).symm, Nat.zero_add,
    ByteArray.extract_append_eq_left (hsize middle).symm]

/-- The part of a text between two offsets is what stands between two places of the text. -/
theorem slice?_eq_some_iff {text part : String} {start stop : Nat} :
    slice? text start stop = some part ↔
      ∃ front back, text.toList = front ++ (part.toList ++ back) ∧ byteLength front = start ∧
        byteLength (front ++ part.toList) = stop := by
  constructor
  · intro h
    rw [slice?] at h
    split at h
    next hvalid =>
      obtain ⟨front, behind, htext, hstart⟩ := exists_append_of_isValid hvalid.1
      obtain ⟨upTo, back, htext', hstop⟩ := exists_append_of_isValid hvalid.2.1
      -- The place where the part stops is behind the one where it starts.
      obtain ⟨middle, rfl⟩ : ∃ middle, upTo = front ++ middle := by
        have hle : byteLength front ≤ byteLength upTo := by omega
        rcases List.append_eq_append_iff.mp (htext.symm.trans htext') with
          ⟨middle, hupTo, -⟩ | ⟨middle, rfl, -⟩
        · exact ⟨middle, hupTo⟩
        · rw [byteLength_append] at hle
          obtain rfl : middle = [] := eq_nil_of_byteLength_eq_zero (by omega)
          exact ⟨[], by simp⟩
      rw [List.append_assoc] at htext'
      subst hstart hstop
      have hslice := slice?_append front middle back
      rw [← htext', String.ofList_toList, slice?, dif_pos hvalid, h] at hslice
      obtain rfl := Option.some.inj hslice
      rw [String.toList_ofList]
      exact ⟨front, back, htext', rfl, rfl⟩
    next => cases h
  · rintro ⟨front, back, htext, rfl, rfl⟩
    have h := slice?_append front part.toList back
    rwa [← htext, String.ofList_toList, String.ofList_toList] at h

/-- A character of two bytes cannot be cut. -/
example : slice? "aéb" 1 3 = some "é" ∧ slice? "aéb" 1 2 = none := by decide +kernel

/-- The longest run of a class of characters at the front of a text. -/
structure LongestRun (accept : Char → Bool) (run text : List Char) : Prop where
  /-- The run is at the front of the text. -/
  front : run <+: text
  /-- The run holds nothing else. -/
  all : ∀ c ∈ run, accept c = true
  /-- Any other such run is part of it. -/
  longest : ∀ other, other <+: text → (∀ c ∈ other, accept c = true) → other <+: run

theorem longestRun_takeWhile (accept : Char → Bool) (text : List Char) :
    LongestRun accept (text.takeWhile accept) text := by
  refine ⟨List.takeWhile_prefix accept, fun c hc => ?_, ?_⟩
  · exact List.all_eq_true.mp List.all_takeWhile c hc
  · rintro other ⟨rest, rfl⟩ hother
    rw [List.takeWhile_append_of_pos hother]
    exact List.prefix_append _ _

namespace Cursor

/-! ### Moves -/

/-- The moves of a cursor. -/
inductive Move where
  /-- Pass the next character. -/
  | advance
  /-- Pass a run of spaces. -/
  | skipSpaces
  /-- Skip spaces, then pass a character if it comes next. -/
  | eat (expected : Char)
  /-- Pass a run of a class of characters. -/
  | takeWhile (accept : Char → Bool)

/-- What a move says: nothing, whether it has passed a character, or the run that it has passed. -/
inductive Answer where
  | nothing
  | eaten (yes : Bool)
  | taken (run : String)

/-- What a cursor says to a move. -/
def answer (c : Cursor) : Move → Answer
  | .advance => .nothing
  | .skipSpaces => .nothing
  | .eat expected => .eaten (c.eat expected).1
  | .takeWhile accept => .taken (String.ofList (c.takeWhile accept).1)

/-- The cursor after a move. -/
def make (c : Cursor) : Move → Cursor
  | .advance => c.advance
  | .skipSpaces => c.skipSpaces
  | .eat expected => (c.eat expected).2
  | .takeWhile accept => (c.takeWhile accept).2

/-- The cursor after several moves. -/
def makeAll (c : Cursor) (moves : List Move) : Cursor :=
  moves.foldl make c

/-- What a move passes of the text that is still to come, and what it says about it. -/
def Move.Takes (rest w : List Char) : Move → Answer → Prop
  | .advance, .nothing => w = rest.take 1
  | .skipSpaces, .nothing => LongestRun (· == ' ') w rest
  | .eat expected, .eaten yes =>
    ∃ spaces, LongestRun (· == ' ') spaces rest ∧ (yes = true ↔ spaces ++ [expected] <+: rest) ∧
      w = if yes then spaces ++ [expected] else spaces
  | .takeWhile accept, .taken run => run = String.ofList w ∧ LongestRun accept w rest
  | _, _ => False

theorem exists_passes_skipSpaces (c : Cursor) :
    ∃ spaces, c.Passes spaces c.skipSpaces ∧ LongestRun (· == ' ') spaces c.rest :=
  ⟨_, passes_takeWhile _ c, longestRun_takeWhile _ _⟩

theorem exists_passes_eat (expected : Char) (c : Cursor) :
    ∃ w, c.Passes w (c.eat expected).2 ∧
      (Move.eat expected).Takes c.rest w (.eaten (c.eat expected).1) := by
  obtain ⟨spaces, hspaces, hlongest⟩ := c.exists_passes_skipSpaces
  by_cases hnext : c.skipSpaces.peek = some expected
  · have heat : c.eat expected = (true, c.skipSpaces.advance) := if_pos hnext
    have hpasses := hspaces.trans (passes_advance hnext)
    rw [heat]
    exact ⟨_, hpasses, _, hlongest, iff_of_true rfl ⟨_, hpasses.rest_eq.symm⟩, rfl⟩
  · have heat : c.eat expected = (false, c.skipSpaces) := if_neg hnext
    rw [heat]
    refine ⟨_, hspaces, _, hlongest, iff_of_false nofun ?_, rfl⟩
    rintro ⟨rest, hrest⟩
    -- The spaces are the longest run, so the character would come next behind them.
    rw [hspaces.rest_eq, List.append_assoc] at hrest
    have hrest : [expected] ++ rest = c.skipSpaces.rest := List.append_cancel_left hrest
    exact hnext (by rw [peek, ← hrest, List.singleton_append, List.head?_cons])

/-- Every move passes a part of what is still to come, and it is the part that the move says. -/
theorem exists_passes_make (c : Cursor) (move : Move) :
    ∃ w, c.Passes w (c.make move) ∧ move.Takes c.rest w (c.answer move) := by
  cases move with
  | advance =>
    obtain ⟨passed, _ | ⟨next, rest⟩⟩ := c
    · exact ⟨[], .refl _, rfl⟩
    · exact ⟨[next], ⟨rfl, rfl⟩, rfl⟩
  | skipSpaces => exact c.exists_passes_skipSpaces
  | eat expected => exact exists_passes_eat expected c
  | takeWhile accept => exact ⟨_, passes_takeWhile accept c, rfl, longestRun_takeWhile _ _⟩

/-! ### Positions -/

variable {c d e : Cursor} {text : String} {move : Move} {moves : List Move} {w : List Char}

/-- What a move passes lies between the positions before and after it. -/
theorem Passes.slice?_eq (hsource : c.source = text.toList) (h : c.Passes w d) :
    slice? text c.position d.position = some (String.ofList w) := by
  have htext : text = String.ofList (c.before ++ (w ++ d.rest)) := by
    rw [← h.rest_eq, before, ← source, hsource, String.ofList_toList]
  rw [htext, position_eq_byteLength_before, position_eq_byteLength_before, h.before_eq]
  exact slice?_append _ _ _

/-- The position of a cursor is one of its text, and the cursor can be read off it. -/
structure StandsIn (text : String) (c : Cursor) : Prop where
  /-- The position falls between two characters. -/
  boundary : (String.Pos.Raw.mk c.position).IsValid text
  /-- The position is not behind the text. -/
  le : c.position ≤ text.utf8ByteSize
  /-- What is still to come is what is behind the position. -/
  rest : slice? text c.position text.utf8ByteSize = some (String.ofList c.rest)
  /-- The cursor is at the end if the position is. -/
  atEnd_iff : c.atEnd = true ↔ text.utf8ByteSize ≤ c.position
  /-- No character comes next at the end only. -/
  peek_eq_none_iff : c.peek = none ↔ c.atEnd = true
  /-- Nothing is still to come at the end only. -/
  rest_eq_nil_iff : c.rest = [] ↔ c.atEnd = true

theorem standsIn_of_source (hsource : c.source = text.toList) : StandsIn text c := by
  have htext : text = String.ofList (c.before ++ c.rest) := by
    rw [before, ← source, hsource, String.ofList_toList]
  have hsize : text.utf8ByteSize = c.position + byteLength c.rest := by
    rw [htext, utf8ByteSize_ofList, byteLength_append, position_eq_byteLength_before]
  have hend : c.Passes c.rest ⟨c.rest.reverse ++ c.passed, []⟩ :=
    ⟨(List.append_nil _).symm, rfl⟩
  refine ⟨?boundary, by omega, ?rest, ?atEnd, ?peek, ?nil⟩
  case boundary =>
    rw [htext, position_eq_byteLength_before]
    exact isValid_byteLength _ _
  case rest =>
    rw [hsize, ← hend.position_eq]
    exact hend.slice?_eq hsource
  case atEnd =>
    rw [atEnd, List.isEmpty_iff, hsize]
    constructor
    · intro h
      simp [h]
    · exact fun h => eq_nil_of_byteLength_eq_zero (by omega)
  case peek => rw [peek, atEnd, List.head?_eq_none_iff, List.isEmpty_iff]
  case nil => rw [atEnd, List.isEmpty_iff]

/-! ### Sequences of moves -/

/-- A sequence of moves in a text, with the text that each of them passes. -/
inductive Travels (text : String) : Cursor → List Move → List (List Char) → Cursor → Prop
  | nil (c : Cursor) : Travels text c [] [] c
  | cons {c d e : Cursor} {move : Move} {moves : List Move} {w : List Char}
      {texts : List (List Char)} (hmake : c.make move = d)
      (htakes : move.Takes c.rest w (c.answer move)) (hposition : c.position ≤ d.position)
      (hslice : slice? text c.position d.position = some (String.ofList w))
      (hstands : StandsIn text d) (hrest : Travels text d moves texts e) :
      Travels text c (move :: moves) (w :: texts) e

/-- Moves pass what is still to come, up to where they lead. -/
theorem exists_travels_of_source (hsource : c.source = text.toList) (moves : List Move) :
    ∃ texts, Travels text c moves texts (c.makeAll moves) ∧
      c.rest = texts.flatten ++ (c.makeAll moves).rest := by
  -- Moves keep the text as a whole, so the cursor after a move is one to start from again.
  induction moves generalizing c with
  | nil => exact ⟨[], .nil c, rfl⟩
  | cons move moves ih =>
    obtain ⟨w, hpasses, htakes⟩ := c.exists_passes_make move
    have hsource' : (c.make move).source = text.toList := hpasses.source_eq.trans hsource
    obtain ⟨texts, htravels, hrest⟩ := ih hsource'
    refine ⟨w :: texts, .cons rfl htakes ?_ (hpasses.slice?_eq hsource)
      (standsIn_of_source hsource') htravels, ?_⟩
    · rw [hpasses.position_eq]
      omega
    · rw [hpasses.rest_eq, hrest, List.flatten_cons, List.append_assoc]
      rfl

end Cursor

/-! ### Texts with an offset -/

/-- A cursor that is a text and a byte offset. Nothing keeps the offset between two characters, so
whatever looks at the text from there may fail. -/
structure ByteCursor where
  /-- The text. -/
  text : String
  /-- The byte offset. -/
  position : Nat

namespace ByteCursor

variable {b : ByteCursor} {next : Char}

/-- The cursor in front of a text. -/
def ofText (text : String) : ByteCursor :=
  ⟨text, 0⟩

/-- What is still to come, if the text can be cut at the offset. -/
def rest? (b : ByteCursor) : Option String :=
  slice? b.text b.position b.text.utf8ByteSize

/-- The next character, if there is one, and if the text can be cut at the offset. -/
def peek? (b : ByteCursor) : Option (Option Char) :=
  b.rest?.map fun rest => rest.toList.head?

/-- No character is still to come. -/
def atEnd (b : ByteCursor) : Bool :=
  decide (b.text.utf8ByteSize ≤ b.position)

/-- The cursor behind a character. -/
def behind (b : ByteCursor) (next : Char) : ByteCursor :=
  { b with position := b.position + next.utf8Size }

/-- Pass the next character, if there is one. -/
def advance? (b : ByteCursor) : Option ByteCursor :=
  b.peek?.map fun
    | some next => b.behind next
    | none => b

/-- In front of a character the offset is not the end of the text. -/
theorem position_lt_of_peek? (h : b.peek? = some (some next)) :
    b.position < b.text.utf8ByteSize := by
  obtain ⟨rest, hrest, hhead⟩ := Option.map_eq_some_iff.mp h
  obtain ⟨front, back, -, hfront, hend⟩ := slice?_eq_some_iff.mp hrest
  obtain ⟨tail, htail⟩ := List.head?_eq_some_iff.mp hhead
  have hsize : 0 < next.utf8Size := next.utf8Size_pos
  rw [byteLength_append, htail, byteLength_cons] at hend
  omega

/-- Pass characters that `accept` holds of, one after the other. -/
def passWhile? (accept : Char → Bool) (b : ByteCursor) : Option ByteCursor :=
  match h : b.peek? with
  | some (some next) =>
    have := position_lt_of_peek? h
    if accept next then passWhile? accept (b.behind next) else some b
  | some none => some b
  | none => none
termination_by b.text.utf8ByteSize - b.position
decreasing_by
  -- Every character takes a byte, and in front of one the end is not reached.
  have hsize : 0 < next.utf8Size := next.utf8Size_pos
  simp only [behind]
  omega

theorem passWhile?_of_accept {accept : Char → Bool} (h : b.peek? = some (some next))
    (hnext : accept next = true) : b.passWhile? accept = (b.behind next).passWhile? accept := by
  rw [passWhile?]
  split
  next head hhead =>
    obtain rfl : head = next := by simpa [hhead] using h
    rw [if_pos hnext]
  next hend => simp [hend] at h
  next hfail => simp [hfail] at h

/-- The cursor stays where no accepted character comes next. -/
theorem passWhile?_of_stop {accept : Char → Bool} {head : Option Char} (h : b.peek? = some head)
    (hstop : ∀ c ∈ head, accept c = false) : b.passWhile? accept = some b := by
  rw [passWhile?]
  split
  next next hnext =>
    have haccept : accept next = false := hstop next (by simpa [hnext] using h.symm)
    rw [haccept, if_neg Bool.false_ne_true]
  next => rfl
  next hfail => simp [hfail] at h

/-- Pass a run of spaces. -/
def skipSpaces? (b : ByteCursor) : Option ByteCursor :=
  b.passWhile? (· == ' ')

/-- Skip spaces, then pass `expected` if it comes next, and say whether it did. -/
def eat? (expected : Char) (b : ByteCursor) : Option (Bool × ByteCursor) := do
  let b ← b.skipSpaces?
  if (← b.peek?) = some expected then return (true, ← b.advance?) else return (false, b)

/-- Pass the longest run of characters that `accept` holds of, and hand out that run. -/
def takeWhile? (accept : Char → Bool) (b : ByteCursor) : Option (String × ByteCursor) := do
  let d ← b.passWhile? accept
  return (← slice? b.text b.position d.position, d)

/-- The cursor after a move, and what it says to the move, if no look at the text fails. -/
def make? (b : ByteCursor) : Cursor.Move → Option (Cursor.Answer × ByteCursor)
  | .advance => b.advance?.map fun d => (.nothing, d)
  | .skipSpaces => b.skipSpaces?.map fun d => (.nothing, d)
  | .eat expected => (b.eat? expected).map fun (yes, d) => (.eaten yes, d)
  | .takeWhile accept => (b.takeWhile? accept).map fun (run, d) => (.taken run, d)

/-- Every look at the text from the offset on sees what is still to come. -/
structure Stands (b : ByteCursor) (rest : String) : Prop where
  /-- The offset falls between two characters. -/
  boundary : (String.Pos.Raw.mk b.position).IsValid b.text
  /-- The offset is not behind the text. -/
  le : b.position ≤ b.text.utf8ByteSize
  /-- The text can be cut at the offset. -/
  rest_eq : b.rest? = some rest
  /-- The next character is the first one that is still to come. -/
  peek_eq : b.peek? = some rest.toList.head?
  /-- The cursor is at the end if nothing is still to come. -/
  atEnd_iff_rest : b.atEnd = true ↔ rest = ""
  /-- The cursor is at the end if no character comes next. -/
  atEnd_iff_peek : b.atEnd = true ↔ b.peek? = some none

/-- A sequence of moves of a byte offset, with the text that each of them passes. -/
inductive Travels : ByteCursor → List Cursor.Move → List (List Char) → ByteCursor → Prop
  | nil (b : ByteCursor) : Travels b [] [] b
  | cons {b d e : ByteCursor} {move : Cursor.Move} {moves : List Cursor.Move}
      {answer : Cursor.Answer} {rest rest' : String} {w : List Char} {texts : List (List Char)}
      (hmake : b.make? move = some (answer, d)) (htext : d.text = b.text)
      (hrest : b.rest? = some rest) (htakes : move.Takes rest.toList w answer)
      (hposition : b.position ≤ d.position)
      (hslice : slice? b.text b.position d.position = some (String.ofList w))
      (hstands : d.Stands rest') (htravels : Travels d moves texts e) :
      Travels b (move :: moves) (w :: texts) e

end ByteCursor

namespace Cursor

/-! ### The offset of a cursor -/

variable {c d : Cursor} {text : String} {move : Move} {moves : List Move} {w : List Char}
  {texts : List (List Char)}

/-- The text of a cursor, and its position. -/
def toBytes (c : Cursor) : ByteCursor :=
  ⟨String.ofList c.source, c.position⟩

/-- A cursor stands in its own text. -/
theorem standsIn_source (c : Cursor) : StandsIn (String.ofList c.source) c :=
  standsIn_of_source String.toList_ofList.symm

@[simp]
theorem toBytes_ofText (text : String) : (ofText text.toList).toBytes = .ofText text := by
  rw [toBytes, source_ofText, String.ofList_toList]
  rfl

@[simp]
theorem rest?_toBytes (c : Cursor) : c.toBytes.rest? = some (String.ofList c.rest) :=
  c.standsIn_source.rest

@[simp]
theorem peek?_toBytes (c : Cursor) : c.toBytes.peek? = some c.peek := by
  rw [ByteCursor.peek?, rest?_toBytes, Option.map_some, String.toList_ofList]
  rfl

@[simp]
theorem atEnd_toBytes (c : Cursor) : c.toBytes.atEnd = c.atEnd := by
  rw [Bool.eq_iff_iff, c.standsIn_source.atEnd_iff, ByteCursor.atEnd, decide_eq_true_iff]
  rfl

theorem stands_toBytes (c : Cursor) : c.toBytes.Stands (String.ofList c.rest) := by
  have hstands : StandsIn (String.ofList c.source) c := c.standsIn_source
  refine ⟨hstands.boundary, hstands.le, c.rest?_toBytes, ?peek, ?nil, ?none⟩
  case peek =>
    rw [peek?_toBytes, String.toList_ofList]
    rfl
  case nil => rw [atEnd_toBytes, ← hstands.rest_eq_nil_iff, String.ofList_eq_empty_iff]
  case none => rw [atEnd_toBytes, ← hstands.peek_eq_none_iff, peek?_toBytes, Option.some.injEq]

/-- The offset moves by the bytes of the character that is passed. -/
theorem behind_toBytes {next : Char} (h : c.peek = some next) :
    c.toBytes.behind next = c.advance.toBytes := by
  rw [toBytes, toBytes, source_advance, (passes_advance h).position_eq]
  rfl

@[simp]
theorem advance?_toBytes (c : Cursor) : c.toBytes.advance? = some c.advance.toBytes := by
  rw [ByteCursor.advance?, peek?_toBytes, Option.map_some]
  rcases hpeek : c.peek with _ | next
  · obtain ⟨passed, _ | ⟨next, rest⟩⟩ := c
    · rfl
    · cases hpeek
  · exact congrArg some (behind_toBytes hpeek)

/-- Passing characters one by one passes their longest run. -/
@[simp]
theorem passWhile?_toBytes (accept : Char → Bool) (c : Cursor) :
    c.toBytes.passWhile? accept = some (c.takeWhile accept).2.toBytes := by
  obtain ⟨passed, rest⟩ := c
  -- Each character that is passed leaves a cursor with less to come.
  induction rest generalizing passed with
  | nil => exact ByteCursor.passWhile?_of_stop (peek?_toBytes _) nofun
  | cons next rest ih =>
    have hpeek : (Cursor.mk passed (next :: rest)).peek = some next := rfl
    have hpeek? := (peek?_toBytes _).trans (congrArg some hpeek)
    by_cases hnext : accept next = true
    · rw [ByteCursor.passWhile?_of_accept hpeek? hnext, behind_toBytes hpeek, advance, ih]
      simp [takeWhile, hnext]
    · rw [ByteCursor.passWhile?_of_stop hpeek? (by simpa using hnext)]
      simp [takeWhile, hnext]

@[simp]
theorem skipSpaces?_toBytes (c : Cursor) : c.toBytes.skipSpaces? = some c.skipSpaces.toBytes :=
  passWhile?_toBytes _ c

@[simp]
theorem eat?_toBytes (expected : Char) (c : Cursor) :
    c.toBytes.eat? expected = some ((c.eat expected).1, (c.eat expected).2.toBytes) := by
  simp only [ByteCursor.eat?, skipSpaces?_toBytes, peek?_toBytes, advance?_toBytes,
    Option.bind_eq_bind, Option.bind_some, eat]
  split <;> rfl

@[simp]
theorem takeWhile?_toBytes (accept : Char → Bool) (c : Cursor) :
    c.toBytes.takeWhile? accept =
      some (String.ofList (c.takeWhile accept).1, (c.takeWhile accept).2.toBytes) := by
  have hslice : slice? c.toBytes.text c.toBytes.position (c.takeWhile accept).2.toBytes.position =
      some (String.ofList (c.takeWhile accept).1) :=
    (passes_takeWhile accept c).slice?_eq String.toList_ofList.symm
  rw [ByteCursor.takeWhile?, passWhile?_toBytes, Option.bind_eq_bind, Option.bind_some, hslice]
  rfl

/-- Moves of a byte offset do not fail where a cursor of two parts stands, and they are the moves of
that cursor. -/
theorem make?_toBytes (c : Cursor) (move : Move) :
    c.toBytes.make? move = some (c.answer move, (c.make move).toBytes) := by
  cases move <;> simp [ByteCursor.make?, answer, make]

/-- A sequence of moves is one of the byte offset too. -/
theorem Travels.toBytes (h : Travels text c moves texts d) (hsource : c.source = text.toList) :
    ByteCursor.Travels c.toBytes moves texts d.toBytes := by
  induction h with
  | nil c => exact .nil _
  | @cons c d e move moves w texts hmake htakes hposition hslice hstands htravels ih =>
    subst hmake
    -- The text is the same behind the move, so the rest of the sequence starts from there.
    obtain ⟨passed, hpasses, -⟩ := c.exists_passes_make move
    have hsource' : (c.make move).source = c.source := hpasses.source_eq
    have htext : c.toBytes.text = text := by rw [Cursor.toBytes, hsource, String.ofList_toList]
    refine .cons (c.make?_toBytes move) (congrArg String.ofList hsource') c.rest?_toBytes
      ?takes hposition ?slice (c.make move).stands_toBytes (ih (hsource'.trans hsource))
    case takes => rwa [String.toList_ofList]
    case slice => rwa [htext]

/-- A cursor neither loses nor repeats any part of its text. Wherever moves have led to, starting in
front of the text, the position falls between two characters; it never goes back; what lies between
two positions has been passed by the move in between, as that move says; and all that has been
passed, with what is still to come, is the text. A byte offset makes the same moves, and no look at
the text fails on the way. -/
theorem exists_travels (text : String) (moves : List Move) :
    (ofText text.toList).position = 0 ∧ StandsIn text (ofText text.toList) ∧
      (ByteCursor.ofText text).Stands text ∧
      ∃ texts, Travels text (ofText text.toList) moves texts ((ofText text.toList).makeAll moves) ∧
        texts.flatten ++ ((ofText text.toList).makeAll moves).rest = text.toList ∧
        ∃ d rest, ByteCursor.Travels (.ofText text) moves texts d ∧ d.rest? = some rest ∧
          String.ofList texts.flatten ++ rest = text := by
  have hsource : (ofText text.toList).source = text.toList := source_ofText _
  obtain ⟨texts, htravels, hrest⟩ := exists_travels_of_source hsource moves
  have hstands := (ofText text.toList).stands_toBytes
  have hbytes := htravels.toBytes hsource
  rw [toBytes_ofText] at hstands hbytes
  refine ⟨rfl, standsIn_of_source hsource, ?stands, texts, htravels, hrest.symm, _, _, hbytes,
    rest?_toBytes _, ?texts⟩
  case stands => rwa [ofText, String.ofList_toList] at hstands
  case texts =>
    rw [← String.ofList_append, ← hrest]
    exact String.ofList_toList

end Cursor

end Calculator
