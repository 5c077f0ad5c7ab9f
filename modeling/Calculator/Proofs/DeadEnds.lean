import Calculator.Proofs.Settling

/-!
# Results that no typing revives

The text of a failure, of infinity, of what is not a number and of a number with an exponent is no
beginning of an expression. The letter in it stands where no letter can, and typing more puts
nothing in front of that letter. So each of them is a dead end: until something is taken away from
the display, every evaluation fails, and what a failure shows is a dead end again.

What one key keeps is said by `Keypad.deadEnd_press`, what any number of them keep by
`Keypad.deadEnd_pressAll`.

## Main definitions

* `Display.Dead`: the results that cannot be calculated with.
* `Key.Adds`: the keys that take nothing away from the display.

## Main results

* `Display.Dead.deadEnd`: these results are dead ends.
* `Keypad.display_equals_of_dead`: they stay dead however many keys are pressed.
-/

namespace Calculator

open Magnitude

/-! ### Dead results -/

namespace Display

variable {options : Options} {v : Float} {text : String}

/-- The results that cannot be calculated with: the text for failures, the three texts that are not
those of finite numbers, and the numbers that are written with an exponent. -/
inductive Dead : String → Prop
  | failure : Dead errorText
  | notANumber : Dead "NaN"
  | infinity : Dead "Infinity"
  | negativeInfinity : Dead "-Infinity"
  | exponent {v : Float} (hfinite : v.isFinite = true) (hnonzero : value (ofFloat v) ≠ 0)
      (hrange : value (ofFloat v) < 1 / 10 ^ 4 ∨ 10 ^ 16 ≤ value (ofFloat v)) : Dead (number v)

/-- Infinity is too large to be written positionally, and so is what is not a number. -/
theorem deadEnd_of_infinite_le (h : infinite ≤ ofFloat v) : DeadEnd options (number v) := by
  refine deadEnd_number fun hlasting => ?_
  have hbelow := Reading.positionalBelow_lt
  have hpositional := positional_iff.mpr hlasting.range
  omega

theorem Dead.deadEnd (h : Dead text) (options : Options) : DeadEnd options text := by
  cases h with
  | failure => exact deadEnd_errorText options
  | notANumber =>
    have hnumber : number (Float.ofBits 0x7ff8000000000000) = "NaN" := by decide +kernel
    exact hnumber ▸ deadEnd_of_infinite_le (by decide +kernel)
  | infinity =>
    have hnumber : number (Float.ofBits 0x7ff0000000000000) = "Infinity" := by decide +kernel
    exact hnumber ▸ deadEnd_of_infinite_le (by decide +kernel)
  | negativeInfinity =>
    have hnumber : number (Float.ofBits 0xfff0000000000000) = "-Infinity" := by decide +kernel
    exact hnumber ▸ deadEnd_of_infinite_le (by decide +kernel)
  | exponent _ hnonzero hrange =>
    refine deadEnd_number fun hlasting => ?_
    obtain ⟨hfrom, hbelow⟩ := hlasting.range.resolve_left hnonzero
    rcases hrange with hsmall | hlarge
    · exact absurd hfrom (not_le.mpr hsmall)
    · exact absurd hbelow (not_lt.mpr hlarge)

end Display

/-! ### The keypad -/

/-- The keys that add to the display or evaluate it, and take nothing away from it. -/
inductive Key.Adds : Key → Prop
  | insert (text : String) : Adds (.insert text)
  | equals : Adds .equals

namespace Keypad

open Display

variable {keypad : Keypad} {key : Key} {keys : List Key}

/-- A dead end stays one when a key adds to it: typing goes on behind it, and its evaluation shows
the text for failures, which is a dead end too. -/
theorem deadEnd_press (hkey : key.Adds) (h : DeadEnd keypad.options keypad.display) :
    DeadEnd (keypad.press key).options (keypad.press key).display := by
  rw [options_press]
  cases hkey with
  | insert text =>
    intro tail
    show expression keypad.options (keypad.display ++ text ++ tail) = errorText
    rw [String.append_assoc]
    exact h (text ++ tail)
  | equals =>
    show DeadEnd keypad.options (expression keypad.options keypad.display)
    rw [h.expression_eq]
    exact deadEnd_errorText keypad.options

theorem deadEnd_pressAll (hkeys : ∀ key ∈ keys, key.Adds)
    (h : DeadEnd keypad.options keypad.display) :
    DeadEnd (keypad.pressAll keys).options (keypad.pressAll keys).display := by
  induction keys generalizing keypad with
  | nil => exact h
  | cons key keys ih =>
    exact ih (fun k hk => hkeys k (List.mem_cons_of_mem key hk))
      (deadEnd_press (hkeys key List.mem_cons_self) h)

/-- A result that cannot be calculated with stays dead until something is taken away from it.
However many texts are typed behind it and however often the display is evaluated in between, each
evaluation shows the text for failures. -/
theorem display_equals_of_dead (h : Dead keypad.display) (hkeys : ∀ key ∈ keys, key.Adds)
    (before after : List Key) (hsplit : keys = before ++ .equals :: after) :
    (keypad.pressAll (before ++ [.equals])).display = errorText := by
  have hbefore : ∀ key ∈ before, key.Adds := fun key hkey =>
    hkeys key (hsplit ▸ List.mem_append_left _ hkey)
  have hdead := deadEnd_pressAll hbefore (h.deadEnd keypad.options)
  rw [pressAll_append]
  exact hdead.expression_eq

/-- A result with an exponent is not made into an expression by going on with the name of a
function, nor is the failure that this gives by going on with an operand. -/
theorem display_equals_of_dead_exponent :
    (press ⟨"1/100000", ⟨9⟩⟩ .equals).display = "1e-5" ∧
      ((press ⟨"1/100000", ⟨9⟩⟩ .equals).pressAll
        [.insert "xp 1", .equals]).display = "Error" ∧
      ((press ⟨"1/100000", ⟨9⟩⟩ .equals).pressAll
        [.insert "xp 1", .equals, .insert "+1", .equals]).display = "Error" := by
  have hdisplay : (press ⟨"1/100000", ⟨9⟩⟩ .equals).display = "1e-5" := by decide +kernel
  have hnumber : number (Float.ofBits 0x3ee4f8b588e368f1) = "1e-5" := by decide +kernel
  have hbelow : ofFloat (Float.ofBits 0x3ee4f8b588e368f1) < positionalFrom := by decide +kernel
  have hpos : 0 < value (ofFloat (Float.ofBits 0x3ee4f8b588e368f1)) := by
    rw [← value_zero]
    exact value_strictMono (by decide +kernel)
  have hsmall : value (ofFloat (Float.ofBits 0x3ee4f8b588e368f1)) < 1 / 10 ^ 4 :=
    not_le.mp fun hle => absurd (positionalFrom_le_iff.mpr hle) (not_le.mpr hbelow)
  have hdead : Dead (press ⟨"1/100000", ⟨9⟩⟩ .equals).display := by
    rw [hdisplay, ← hnumber]
    exact .exponent (by decide) hpos.ne' (.inl hsmall)
  have hkeys : ∀ key ∈ [Key.insert "xp 1", .equals, .insert "+1", .equals], key.Adds := by
    simp only [List.mem_cons, List.not_mem_nil, or_false]
    rintro key (rfl | rfl | rfl | rfl)
    all_goals constructor
  refine ⟨hdisplay, ?_, ?_⟩
  · exact display_equals_of_dead hdead hkeys [.insert "xp 1"] [.insert "+1", .equals] rfl
  · exact display_equals_of_dead hdead hkeys [.insert "xp 1", .equals, .insert "+1"] [] rfl

end Keypad

end Calculator
