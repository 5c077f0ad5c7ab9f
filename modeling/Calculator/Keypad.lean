import Calculator.Evaluation

/-!
# The keypad

A calculator with keys and a display of plain text. Most keys type their label; three edit the
display or replace it by its value. What stands on the display after a result or a failure is text
like any other: further keys add to it.

## Main results

* `Key.flatten_rowsOf`: cutting labels into rows keeps all of them in order.
* `Keypad.pressAll_append`: keys may be pressed in several goes.
-/

namespace Calculator

/-- A key of the calculator. -/
inductive Key where
  /-- Empties the display. -/
  | clear
  /-- Removes the last character of the display. -/
  | delete
  /-- Replaces the display by the value of what it shows. -/
  | equals
  /-- Adds a text to the display. -/
  | insert (text : String)
deriving DecidableEq

namespace Key

/-- The labels of the keys, row by row. -/
def labels : List String :=
  ["7", "8", "9", "/", "sin", "cos", "tan", "C",
    "4", "5", "6", "*", "ln", "log", "sqrt", "(",
    "1", "2", "3", "-", "^", "e", "pi", ")",
    "0", ".", "=", "+", "exp", "abs", "mod", "DEL"]

/-- The number of keys in a row. -/
def rowLength : Nat :=
  8

/-- Cut labels into rows. -/
def rowsOf (keys : List String) : List (List String) :=
  if keys.isEmpty then [] else keys.take rowLength :: rowsOf (keys.drop rowLength)
termination_by keys.length
decreasing_by
  have : keys ≠ [] := by simp_all
  have := List.length_pos_iff.mpr this
  simp only [List.length_drop, rowLength]
  omega

/-- Cutting labels into rows keeps all of them in order. -/
theorem flatten_rowsOf (keys : List String) : (rowsOf keys).flatten = keys := by
  fun_induction rowsOf keys with
  | case1 keys h => simp_all
  | case2 keys h ih => rw [List.flatten_cons, ih, List.take_append_drop]

/-- The labels as they are laid out. -/
def layout : List (List String) :=
  rowsOf labels

/-- The key with a label. All labels but three type themselves. -/
def ofLabel? (label : String) : Option Key :=
  if label = "C" then some .clear
  else if label = "DEL" then some .delete
  else if label = "=" then some .equals
  else if label ∈ labels then some (.insert label)
  else none

end Key

/-- A calculator that is driven by key presses. -/
structure Keypad where
  /-- The text on the display. -/
  display : String := ""
  /-- How the display is evaluated. -/
  options : Options := {}
deriving DecidableEq

namespace Keypad

/-- Press a key. -/
def press (keypad : Keypad) : Key → Keypad
  | .clear => { keypad with display := "" }
  | .delete => { keypad with display := String.ofList keypad.display.toList.dropLast }
  | .equals => { keypad with display := Display.expression keypad.options keypad.display }
  | .insert text => { keypad with display := keypad.display ++ text }

/-- No key changes how the display is evaluated. -/
@[simp]
theorem options_press (keypad : Keypad) (key : Key) :
    (keypad.press key).options = keypad.options := by
  cases key <;> rfl

/-- Press keys one after the other. -/
def pressAll (keypad : Keypad) (keys : List Key) : Keypad :=
  keys.foldl press keypad

/-- Pressing keys in two goes is pressing them all. -/
theorem pressAll_append (keypad : Keypad) (keys more : List Key) :
    keypad.pressAll (keys ++ more) = (keypad.pressAll keys).pressAll more :=
  List.foldl_append

@[simp]
theorem options_pressAll (keypad : Keypad) (keys : List Key) :
    (keypad.pressAll keys).options = keypad.options := by
  induction keys generalizing keypad with
  | nil => rfl
  | cons key keys ih => exact (ih _).trans (options_press keypad key)

end Keypad

end Calculator
