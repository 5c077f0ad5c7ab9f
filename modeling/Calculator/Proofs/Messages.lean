import Calculator.Failure
import Mathlib.Data.List.DropRight

/-!
# Messages can be read back

The message of a failure quotes a position, and most causes quote a character, a text or a limit,
all of them as they are. Nothing is lost by that: there is a reader of messages that gives back the
failure, so two failures with the same message are the same.

A message consists of fixed wording around what is quoted, and the wording depends on the form of
the message only. No wording in front is the beginning of another one, so it tells the form, and the
form tells how much wording is behind. It does not matter what a quoted text contains, because it is
found by what surrounds it, from both ends of the message.

## Main definitions

* `Failure.Form`: the forms of messages, with their wording in front (`opening`) and behind
  (`ending`).
* `Failure.Cause.form`, `Failure.Cause.quoted`: the form of a cause and what it quotes.
* `Failure.ofMessage?`: the reader.

## Main results

* `Failure.Form.eq_of_isPrefix`: the wording in front tells the form.
* `Failure.ofMessage?_message`: the reader gives back the failure.
* `Failure.message_inj`: a failure is determined by its message.
-/

namespace Calculator

namespace Failure

/-! ### The forms of messages -/

/-- The forms of messages, one for each sort of cause. -/
inductive Form where
  /-- The form that quotes a character which starts no operand. -/
  | unexpectedCharacter
  /-- The form for a text that ended too early. -/
  | unexpectedEnd
  /-- The form for a group that was not closed. -/
  | unclosedGroup
  /-- The form that quotes what followed an expression. -/
  | trailingInput
  /-- The form that quotes an unknown name. -/
  | unknownName
  /-- The form that quotes a malformed literal. -/
  | malformedNumeral
  /-- The form that quotes the limit for open factors. -/
  | nestingTooDeep
deriving DecidableEq

namespace Form

/-- All forms. -/
def all : List Form :=
  [.unexpectedCharacter, .unexpectedEnd, .unclosedGroup, .trailingInput, .unknownName,
    .malformedNumeral, .nestingTooDeep]

/-- The wording in front of what is quoted. -/
def opening : Form → String
  | .unexpectedCharacter => "Unexpected character '"
  | .unexpectedEnd => "Unexpected end of input."
  | .unclosedGroup => "Expected closing parenthesis ')' but none found."
  | .trailingInput => "Extra input after expression: "
  | .unknownName => "Unknown function or constant '"
  | .malformedNumeral => "Malformed number '"
  | .nestingTooDeep => "Expression nested deeper than "

/-- The wording behind what is quoted. -/
def ending : Form → String
  | .unexpectedCharacter | .unknownName | .malformedNumeral => "'."
  | .unexpectedEnd | .unclosedGroup | .trailingInput => ""
  | .nestingTooDeep => " levels."

/-- The cause with a form that quotes a text. A character stands for itself, and a limit is written
in decimal. -/
def cause? : Form → List Char → Option Cause
  | .unexpectedCharacter, quoted => quoted.head?.map .unexpectedCharacter
  | .unexpectedEnd, _ => some .unexpectedEnd
  | .unclosedGroup, _ => some .unclosedGroup
  | .trailingInput, quoted => some (.trailingInput (String.ofList quoted))
  | .unknownName, quoted => some (.unknownName (String.ofList quoted))
  | .malformedNumeral, quoted => some (.malformedNumeral (String.ofList quoted))
  | .nestingTooDeep, quoted => some (.nestingTooDeep (Nat.ofDigitChars 10 quoted 0))

theorem mem_all (form : Form) : form ∈ all := by
  cases form <;> decide

/-- No wording in front is the beginning of another one. -/
theorem eq_of_isPrefix {form other : Form}
    (h : other.opening.toList <+: form.opening.toList) : other = form := by
  have hall : ∀ other ∈ all, ∀ form ∈ all,
      other.opening.toList <+: form.opening.toList → other = form := by decide +kernel
  exact hall other other.mem_all form form.mem_all h

/-- Among all forms, a text has the wording in front of one only. -/
theorem isPrefix_append_iff {form other : Form} {text : List Char} :
    other.opening.toList <+: form.opening.toList ++ text ↔ other = form := by
  constructor
  · intro h
    -- Both wordings begin the same text, so the shorter one begins the longer one.
    rcases List.prefix_or_prefix_of_prefix h (List.prefix_append form.opening.toList text) with
      h | h
    · exact eq_of_isPrefix h
    · exact (eq_of_isPrefix h).symm
  · rintro rfl
    exact List.prefix_append _ _

end Form

/-! ### Reading a message -/

namespace Cause

/-- The form of the message of a cause. -/
def form : Cause → Form
  | .unexpectedCharacter _ => .unexpectedCharacter
  | .unexpectedEnd => .unexpectedEnd
  | .unclosedGroup => .unclosedGroup
  | .trailingInput _ => .trailingInput
  | .unknownName _ => .unknownName
  | .malformedNumeral _ => .malformedNumeral
  | .nestingTooDeep _ => .nestingTooDeep

/-- What the message of a cause quotes. -/
def quoted : Cause → List Char
  | .unexpectedCharacter found => [found]
  | .unexpectedEnd | .unclosedGroup => []
  | .trailingInput text | .unknownName text | .malformedNumeral text => text.toList
  | .nestingTooDeep limit => Nat.toDigits 10 limit

/-- The message of a cause is what it quotes between the wording of its form. -/
theorem message_eq (cause : Cause) :
    cause.message = cause.form.opening ++ String.ofList cause.quoted ++ cause.form.ending := by
  cases cause with
  | unexpectedCharacter found => rfl
  | unexpectedEnd | unclosedGroup => rfl
  | trailingInput text =>
    rw [quoted, String.ofList_toList]
    exact String.append_empty.symm
  | unknownName text | malformedNumeral text =>
    rw [quoted, String.ofList_toList]
    rfl
  | nestingTooDeep limit => rfl

theorem toList_message (cause : Cause) :
    cause.message.toList =
      cause.form.opening.toList ++ (cause.quoted ++ cause.form.ending.toList) := by
  rw [message_eq, String.toList_append, String.toList_append, String.toList_ofList,
    List.append_assoc]

/-- A cause is determined by its form and by what it quotes. -/
theorem cause?_quoted (cause : Cause) : cause.form.cause? cause.quoted = some cause := by
  cases cause with
  | nestingTooDeep limit =>
    rw [form, quoted, Form.cause?, Nat.ofDigitChars_toDigits (by decide) (by decide)]
  | _ => simp [form, quoted, Form.cause?]

/-- Read the message of a cause: find its form by the wording in front, and take away the wording
on both sides. -/
def ofMessage? (text : List Char) : Option Cause := do
  let form ← Form.all.find? fun form => form.opening.toList.isPrefixOf text
  form.cause? ((text.drop form.opening.length).rdrop form.ending.length)

/-- A text that starts with the wording of a form has this form. -/
theorem find?_opening (form : Form) (text : List Char) :
    Form.all.find? (fun other => other.opening.toList.isPrefixOf (form.opening.toList ++ text)) =
      some form := by
  -- No other form fits, so the order in which forms are tried does not matter.
  have hfits : (fun other : Form =>
      other.opening.toList.isPrefixOf (form.opening.toList ++ text)) = (· == form) := by
    ext other
    rw [Bool.eq_iff_iff, List.isPrefixOf_iff_prefix, Form.isPrefix_append_iff, beq_iff_eq]
  rw [hfits]
  cases form <;> rfl

/-- What stands between two texts is found by their lengths. -/
theorem rdrop_drop_append (front middle back : List Char) :
    ((front ++ (middle ++ back)).drop front.length).rdrop back.length = middle := by
  rw [List.drop_left, List.rdrop, List.length_append, Nat.add_sub_cancel, List.take_left]

theorem ofMessage?_message (cause : Cause) : ofMessage? cause.message.toList = some cause := by
  rw [ofMessage?, toList_message, find?_opening]
  show cause.form.cause? _ = some cause
  rw [← String.length_toList, ← String.length_toList, rdrop_drop_append, cause?_quoted]

end Cause

/-- The wording in front of the position. -/
def heading : String :=
  "Error at position "

/-- Read a message: the digits of the position, and behind a colon and a space the message of the
cause. -/
def ofMessage? (message : String) : Option Failure := do
  let text ← message.toList.dropPrefix? heading.toList
  let cause ← Cause.ofMessage? ((text.dropWhile Char.isDigit).drop 2)
  return ⟨cause, Nat.ofDigitChars 10 (text.takeWhile Char.isDigit) 0⟩

/-- The digits of a position end in front of the colon. -/
theorem takeWhile_toDigits_append (n : ℕ) {c : Char} (hc : c.isDigit = false) (text : List Char) :
    (Nat.toDigits 10 n ++ c :: text).takeWhile Char.isDigit = Nat.toDigits 10 n ∧
      (Nat.toDigits 10 n ++ c :: text).dropWhile Char.isDigit = c :: text := by
  have hdigits : ∀ d ∈ Nat.toDigits 10 n, d.isDigit = true := fun d hd =>
    Nat.isDigit_of_mem_toDigits (by decide) (by decide) hd
  rw [List.takeWhile_append_of_pos hdigits, List.dropWhile_append_of_pos hdigits]
  simp [hc]

/-- The reader gives back the failure. -/
theorem ofMessage?_message (f : Failure) : ofMessage? f.message = some f := by
  obtain ⟨cause, position⟩ := f
  have htext : (Failure.message ⟨cause, position⟩).toList =
      heading.toList ++ (Nat.toDigits 10 position ++ ':' :: ' ' :: cause.message.toList) := by
    show (heading ++ toString position ++ ": " ++ cause.message).toList = _
    rw [String.toList_append, String.toList_append, String.toList_append, Nat.toString_eq_repr,
      Nat.toList_repr, List.append_assoc, List.append_assoc]
    rfl
  obtain ⟨htake, hdrop⟩ :=
    takeWhile_toDigits_append position (by decide : ':'.isDigit = false)
      (' ' :: cause.message.toList)
  rw [ofMessage?, htext, List.dropPrefix?_append_of_beq _ (by simp), Option.bind_eq_bind,
    Option.bind_some, htake, hdrop]
  show (Cause.ofMessage? cause.message.toList).bind _ = _
  rw [Cause.ofMessage?_message, Option.bind_some, Nat.ofDigitChars_toDigits (by decide) (by decide)]
  rfl

/-- What is quoted may look like a message itself. -/
example : ofMessage? "Error at position 7: Extra input after expression: Malformed number '.'." =
    some ⟨.trailingInput "Malformed number '.'.", 7⟩ := by decide +kernel

/-- A failure is determined by its message. -/
theorem message_inj {f g : Failure} : f.message = g.message ↔ f = g := by
  constructor
  · intro h
    have hread : some f = some g := by
      rw [← ofMessage?_message f, ← ofMessage?_message g, h]
    exact Option.some.inj hread
  · rintro rfl
    rfl

end Failure

end Calculator
