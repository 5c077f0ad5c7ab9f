import Calculator.Proofs.LeftOver
import Calculator.Proofs.Typing

/-!
# Repeated evaluations

To evaluate the display puts the text of its value there, and to evaluate again reads this text. The
display comes to rest after two evaluations at the latest. A number stays if it was written
positionally, unless it has a minus sign and no factor may be opened behind one. In place of all
others comes the text for failures, and that is the text of a failure again.

What a failure within the first factor does to the whole text is said by `Rule.Fails`. Numbers with
an exponent are read up to the `e`, which nothing can go on with.

## Main definitions

* `Display.Lasting`: the numbers that stay.
* `Display.DeadEnd`: the texts that no text behind them makes an expression.
* `Keypad.afterEquals`: the display after a number of evaluations.

## Main results

* `Display.expression_number_of_lasting`: the text of a number that stays, evaluated.
* `Display.deadEnd_number`: the text of every other number is a dead end.
* `Keypad.equals_settles`: evaluations come to rest.
-/

namespace Calculator

open Magnitude

namespace Parser

open Grammar

variable {rule r : Rule} {s s₁ : State} {next : Expr → Rule} {e : Expr} {c : Char} {limit : Nat}
  {w rest : List Char}

/-! ### Failures in the first factor -/

/-- A rule fails here. -/
def Rule.Fails (rule : Rule) (s : State) : Prop :=
  ∃ f t, Runs rule s ⟨.error f, t⟩

/-- A rule fails where the rule fails that it starts. -/
theorem Starts.fails (hstart : Starts rule s r s₁ next) (h : r.Fails s₁) : rule.Fails s := by
  obtain ⟨f, t, hrun⟩ := h
  exact ⟨f, _, .fail hstart hrun⟩

/-- A factor fails if it fails once it has been opened. -/
theorem fails_factor (h : s.depth < s.limit → Rule.openFactor.Fails s.enter) :
    Rule.factor.Fails s := by
  by_cases hdepth : s.depth < s.limit
  · exact (Starts.factor hdepth).fails (h hdepth)
  · exact ⟨_, _, .stop (.tooDeep (Nat.not_lt.mp hdepth))⟩

/-- The first character of an operand, or a space in front of it. -/
def startsOperand (c : Char) : Bool :=
  c == ' ' || (Sign.ofChar? c).isSome || c == '(' || isNumeralChar c || c.isLower

/-- A factor fails in front of a character that starts no operand. -/
theorem fails_factor_of_not_startsOperand (hpeek : s.peek = some c) (hc : startsOperand c = false) :
    Rule.factor.Fails s := by
  simp only [startsOperand, Bool.or_eq_false_iff, beq_eq_false_iff_ne, Option.isSome_eq_false_iff,
    Option.isNone_iff_eq_none] at hc
  obtain ⟨⟨⟨⟨hspace, hsign⟩, hparen⟩, hnumeral⟩, hlower⟩ := hc
  have hpeek : s.enter.peek = some c := hpeek
  refine fails_factor fun _ => Starts.fails (.primary (State.skips_refl ?_) ?_)
    ⟨_, _, .stop (.unexpectedCharacter hpeek hparen hnumeral hlower)⟩
  · rw [hpeek]
    exact fun h => hspace (Option.some.inj h)
  · rw [State.next?, hpeek, Option.bind_some, hsign]

/-- A text behind its sign, which is a minus sign or nothing. -/
def signed (sign : Bool) (w : List Char) : List Char :=
  if sign = true then '-' :: w else w

theorem signed_append (sign : Bool) (v w : List Char) :
    signed sign (v ++ w) = signed sign v ++ w := by
  cases sign <;> rfl

/-- A factor fails if it fails behind its sign. -/
theorem fails_factor_of_sign {sign : Bool} (hrest : s.cursor.rest = signed sign w)
    (h : ∀ t : State, t.cursor.rest = w → t.limit = s.limit → t.depth = s.depth + sign.toNat →
      Rule.factor.Fails t) :
    Rule.factor.Fails s := by
  cases sign
  case false => exact h s hrest rfl rfl
  case true =>
    have hpeek : s.enter.peek = some '-' := by
      show s.cursor.rest.head? = some '-'
      rw [hrest]
      rfl
    have hpass : s.enter.Passes ['-'] s.enter.advance := State.passes_advance hpeek
    have hbehind : s.enter.advance.cursor.rest = w :=
      List.cons.inj (hpass.cursor.rest_eq.symm.trans hrest) |>.2
    exact fails_factor fun _ =>
      (Starts.sign (g := []) .nil hpass rfl).fails (h _ hbehind hpass.limit_eq hpass.depth_eq)

/-- A text fails if its first factor does. -/
theorem exists_parses_of_fails {text : List Char} (h : Rule.factor.Fails (.start limit text)) :
    ∃ f t, Parses limit text ⟨.error f, t⟩ := by
  have hterm : (Rule.chain .product).Fails (.start limit text) := Starts.fails .chain h
  obtain ⟨f, t, hrun⟩ : (Rule.chain .sum).Fails (.start limit text) := Starts.fails .chain hterm
  exact ⟨f, t, .fail hrun⟩

/-- No expression without letters goes on with an `e`, although the name `e` is that of a
constant. -/
theorem delimits_exponent (h : ∀ last ∈ w, last.isLower = false) :
    Delimits .expression w ('e' :: rest) := by
  rintro next ⟨⟩
  refine ⟨by decide, by decide, fun last hlast => ?_⟩
  rw [joins, h last (List.mem_of_getLast? hlast)]
  exact Bool.and_false _

end Parser

open Calculator.Parser Grammar

/-! ### Displayed numbers, evaluated -/

namespace Display

variable {options : Options} {d : ℕ} {v : Float} {text : String}

/-- The numbers of which the text is read as the number again, under a limit: they are written
positionally, and a minus sign leaves room for the factor behind it. -/
structure Lasting (d : ℕ) (v : Float) : Prop where
  /-- The number is written positionally. -/
  range : value (ofFloat v) = 0 ∨ 1 / 10 ^ 4 ≤ value (ofFloat v) ∧ value (ofFloat v) < 10 ^ 16
  /-- The minus sign opens a factor, and what stands behind it opens another one. -/
  sign : signBit v = false ∨ 2 ≤ d

/-- The text of a failure is shown where a parse fails. -/
theorem expression_eq_errorText
    (h : ∃ f t, Parses options.maxDepth text.toList ⟨.error f, t⟩) :
    expression options text = errorText := by
  obtain ⟨f, t, hparse⟩ := h
  rw [expression, evaluate_eq_error_iff.mpr ⟨t, hparse⟩, outcome]

/-- An evaluation shows a number or a failure. -/
theorem expression_eq_errorText_or (options : Options) (text : String) :
    expression options text = errorText ∨ ∃ v, expression options text = number v := by
  rw [expression]
  rcases evaluate options text with f | v
  · exact Or.inl rfl
  · exact Or.inr ⟨v, rfl⟩

/-- Without any factor, everything fails. -/
theorem expression_zero (h : options.maxDepth = 0) (text : String) :
    expression options text = errorText :=
  expression_eq_errorText (exists_parses_of_fails ⟨_, _, .stop (.tooDeep h.le)⟩)

/-- Whatever is typed behind the text, evaluating it shows the text for failures. -/
def DeadEnd (options : Options) (text : String) : Prop :=
  ∀ tail : String, expression options (text ++ tail) = errorText

/-- A dead end is one with nothing typed behind it, too. -/
theorem DeadEnd.expression_eq (h : DeadEnd options text) : expression options text = errorText := by
  have hempty := h ""
  rwa [String.append_empty] at hempty

/-- A text is a dead end if it fails in front of every other text. -/
theorem deadEnd_of_parses
    (h : ∀ tail, ∃ f t, Parses options.maxDepth (text.toList ++ tail) ⟨.error f, t⟩) :
    DeadEnd options text := by
  intro tail
  apply expression_eq_errorText
  rw [String.toList_append]
  exact h tail.toList

/-- The text for failures is a dead end. -/
theorem deadEnd_errorText (options : Options) : DeadEnd options errorText :=
  deadEnd_of_parses fun _ =>
    exists_parses_of_fails (fails_factor_of_not_startsOperand (c := 'E') rfl (by decide))

/-- The text for failures fails. -/
theorem expression_errorText (options : Options) : expression options errorText = errorText :=
  (deadEnd_errorText options).expression_eq

/-- The text of a number is that of its magnitude behind its sign. -/
theorem toList_number (h : ofFloat v ≤ infinite) :
    (number v).toList = signed (signBit v) (magnitude (ofFloat v)) :=
  Reading.toList_number h

/-- A numeral behind its sign. -/
theorem reads_signed {run : List Char} {n : Numeral} (sign : Bool)
    (hchars : ∀ c ∈ run, isNumeralChar c = true) (hn : Numeral.ofRun? run = some n) :
    ∃ e : Expr, Reads .expression (signed sign run) e ∧ e.nest = sign.toNat + 1 ∧
      e.value = if sign = true then -n.value else n.value := by
  have hnumeral : Reads .factor run (.numeral n) := (Reads.numeral hchars hn).atom
  cases sign
  case false => exact ⟨.numeral n, .single (.single hnumeral), rfl, rfl⟩
  case true =>
    exact ⟨.signed .minus (.numeral n), .single (.single (.signed .minus hnumeral)), rfl, rfl⟩

/-- The numbers that stay are the values of their texts. -/
theorem expression_number_of_lasting (h : Lasting options.maxDepth v)
    (hlimit : 0 < options.maxDepth) : expression options (number v) = number v := by
  obtain ⟨hfinite, hchars, n, hn, hvalue⟩ := exists_numeral_of_range h.range
  obtain ⟨e, ⟨T, rfl, hspells⟩, hnest, he⟩ := reads_signed (signBit v) hchars hn
  rw [← toList_number hfinite.le] at hspells
  rw [hvalue, ← eq_toFloat_or_neg hfinite.le] at he
  have hroom : T.nest ≤ options.maxDepth := by
    rw [← T.nest_expr, hnest]
    rcases h.sign with hsign | htwo
    · rwa [hsign]
    · exact (Nat.succ_le_succ (signBit v).toNat_le).trans htwo
  show outcome ((parse options.maxDepth (number v).toList).result.map Expr.value) = number v
  rw [parse_of_spells hspells hroom, Except.map, he, outcome]

/-- If an evaluation shows a number that stays, then it stays. -/
theorem expression_expression_of_lasting (h : expression options text = number v)
    (hv : Lasting options.maxDepth v) :
    expression options (expression options text) = expression options text := by
  rcases Nat.eq_zero_or_pos options.maxDepth with hzero | hpos
  · rw [expression_zero hzero, expression_zero hzero]
  · rw [h, expression_number_of_lasting hv hpos]

theorem toList_number_of_nan (h : infinite < ofFloat v) : (number v).toList = "NaN".toList := by
  have hsign : ¬(signBit v = true ∧ ofFloat v ≤ infinite) := fun hv => by omega
  simp only [number, magnitude, if_pos h, if_neg hsign, List.nil_append, String.toList_ofList]

/-- A number with an exponent is read up to its exponent, whatever follows it. -/
theorem exists_parses_scientific {decimal : Decimal} (h : decimal.Proper) (sign : Bool)
    (hlimit : sign.toNat + 1 ≤ d) (tail : List Char) :
    ∃ f t, Parses d (signed sign decimal.scientific ++ tail) ⟨.error f, t⟩ := by
  obtain ⟨mantissa, n, heq, hchars, hn, -⟩ := Reading.exists_scientific_eq h
  obtain ⟨e, hreads, hnest, -⟩ := reads_signed sign hchars hn
  have hlower : ∀ last ∈ signed sign mantissa, last.isLower = false := by
    intro last hlast
    have hmem : last = '-' ∨ last ∈ mantissa := by
      unfold signed at hlast
      split_ifs at hlast
      · exact List.mem_cons.mp hlast
      · exact Or.inr hlast
    rcases hmem with rfl | hmem
    · decide
    · exact isLower_eq_false_of_isNumeralChar (hchars last hmem)
  rw [heq, signed_append, List.append_assoc]
  obtain ⟨t, hparse⟩ := exists_parses_leftOver hreads (hnest ▸ hlimit) (delimits_exponent hlower)
    (List.cons_ne_nil _ _)
  exact ⟨_, t, hparse⟩

/-- All other numbers are dead ends. -/
theorem deadEnd_number (h : ¬Lasting options.maxDepth v) : DeadEnd options (number v) := by
  refine deadEnd_of_parses fun tail => ?_
  by_cases hnan : infinite < ofFloat v
  · rw [toList_number_of_nan hnan]
    exact exists_parses_of_fails (fails_factor_of_not_startsOperand (c := 'N') rfl (by decide))
  rw [toList_number (not_lt.mp hnan)]
  by_cases hlimit : (signBit v).toNat + 1 ≤ options.maxDepth
  case neg =>
    -- There is no room for a numeral, whatever the layout.
    refine exists_parses_of_fails
      (fails_factor_of_sign (signed_append _ _ tail).symm fun t _ htlimit htdepth => ?_)
    have hdeep : t.limit ≤ t.depth := by
      rw [htlimit, htdepth]
      show options.maxDepth ≤ 0 + (signBit v).toNat
      omega
    exact ⟨_, _, .stop (.tooDeep hdeep)⟩
  -- So it is the layout, or else the number would stay.
  have hsign : signBit v = false ∨ 2 ≤ options.maxDepth := by
    rcases hsign : signBit v with _ | _
    · exact Or.inl rfl
    · rw [hsign] at hlimit
      exact Or.inr hlimit
  obtain ⟨hzero, hpositional⟩ := not_or.mp fun hlayout => h ⟨positional_iff.mp hlayout, hsign⟩
  by_cases hinfinite : ofFloat v = infinite
  · have htext : magnitude (ofFloat v) = "Infinity".toList := by
      rw [magnitude, if_neg hnan, if_pos hinfinite]
    rw [htext]
    refine exists_parses_of_fails
      (fails_factor_of_sign (signed_append _ _ tail).symm fun t hrest _ _ => ?_)
    have hpeek : t.peek = some 'I' := by
      rw [State.peek, Cursor.peek, hrest]
      rfl
    exact fails_factor_of_not_startsOperand hpeek (by decide)
  · have hpos := Nat.pos_of_ne_zero hzero
    have hfinite : ofFloat v < infinite := lt_of_le_of_ne (not_lt.mp hnan) hinfinite
    rw [Reading.magnitude_eq hpos hfinite, if_neg hpositional]
    exact exists_parses_scientific (Decimal.proper_shortest hpos) _ hlimit tail

/-- All other numbers are replaced by the text for failures. -/
theorem expression_number_of_not_lasting (h : ¬Lasting options.maxDepth v) :
    expression options (number v) = errorText :=
  (deadEnd_number h).expression_eq

end Display

/-! ### The keypad -/

namespace Keypad

/-- The display after a number of evaluations. -/
def afterEquals (keypad : Keypad) (n : ℕ) : String :=
  (keypad.pressAll (List.replicate n .equals)).display

theorem afterEquals_succ (keypad : Keypad) (n : ℕ) :
    keypad.afterEquals (n + 1) = Display.expression keypad.options (keypad.afterEquals n) := by
  rw [afterEquals, List.replicate_succ', pressAll_append]
  show Display.expression (keypad.pressAll _).options _ = _
  rw [options_pressAll]
  rfl

/-- What one evaluation leaves unchanged, all further ones do. -/
theorem afterEquals_add {keypad : Keypad} {n : ℕ}
    (h : keypad.afterEquals (n + 1) = keypad.afterEquals n) (m : ℕ) :
    keypad.afterEquals (n + m) = keypad.afterEquals n := by
  induction m with
  | zero => rfl
  | succ m ih => rw [← Nat.add_assoc, afterEquals_succ, ih, ← afterEquals_succ, h]

/-- Evaluations come to rest. The first one shows a number or a failure. If it shows a number that
stays, or a failure, then nothing changes any more. If it shows any other number, then the second
one shows a failure, and nothing changes from then on. -/
theorem equals_settles (keypad : Keypad) :
    (keypad.afterEquals 1 = Display.errorText ∨ ∃ v, keypad.afterEquals 1 = Display.number v) ∧
    (keypad.afterEquals 1 = Display.errorText → keypad.afterEquals 2 = keypad.afterEquals 1) ∧
    (∀ v, keypad.afterEquals 1 = Display.number v → Display.Lasting keypad.options.maxDepth v →
      keypad.afterEquals 2 = keypad.afterEquals 1) ∧
    (∀ v, keypad.afterEquals 1 = Display.number v → ¬Display.Lasting keypad.options.maxDepth v →
      keypad.afterEquals 2 = Display.errorText) ∧
    ∀ n, keypad.afterEquals (n + 2) = keypad.afterEquals 2 := by
  have hstep := keypad.afterEquals_succ
  have hfirst : keypad.afterEquals 1 = Display.errorText ∨
      ∃ v, keypad.afterEquals 1 = Display.number v :=
    Display.expression_eq_errorText_or keypad.options (keypad.afterEquals 0)
  have herror (h : keypad.afterEquals 1 = Display.errorText) :
      keypad.afterEquals 2 = keypad.afterEquals 1 := by
    rw [hstep 1, h, Display.expression_errorText]
  have hlasting (v : Float) (h : keypad.afterEquals 1 = Display.number v)
      (hv : Display.Lasting keypad.options.maxDepth v) :
      keypad.afterEquals 2 = keypad.afterEquals 1 := by
    rw [hstep 1]
    rw [hstep 0] at h ⊢
    exact Display.expression_expression_of_lasting h hv
  have hother (v : Float) (h : keypad.afterEquals 1 = Display.number v)
      (hv : ¬Display.Lasting keypad.options.maxDepth v) :
      keypad.afterEquals 2 = Display.errorText := by
    rw [hstep 1, h, Display.expression_number_of_not_lasting hv]
  -- The second evaluation changes nothing, or it shows a failure.
  have hrest : keypad.afterEquals 3 = keypad.afterEquals 2 := by
    have hsame (h : keypad.afterEquals 2 = keypad.afterEquals 1) :
        keypad.afterEquals 3 = keypad.afterEquals 2 := (afterEquals_add h 2).trans h.symm
    rcases hfirst with h | ⟨v, h⟩
    · exact hsame (herror h)
    · by_cases hv : Display.Lasting keypad.options.maxDepth v
      · exact hsame (hlasting v h hv)
      · rw [hstep 2, hother v h hv, Display.expression_errorText]
  refine ⟨hfirst, herror, hlasting, hother, fun n => ?_⟩
  rw [Nat.add_comm]
  exact afterEquals_add hrest n

/-- A negative result stays if two factors may be open, and does not if only one may. -/
theorem equals_settles_negative :
    afterEquals ⟨"1-3", ⟨2⟩⟩ 1 = "-2.0" ∧ afterEquals ⟨"1-3", ⟨2⟩⟩ 2 = "-2.0" ∧
      afterEquals ⟨"1-3", ⟨1⟩⟩ 1 = "-2.0" ∧ afterEquals ⟨"1-3", ⟨1⟩⟩ 2 = "Error" ∧
      ∀ n, afterEquals ⟨"1-3", ⟨1⟩⟩ (n + 2) = "Error" := by
  have hnumber : Display.number (Float.ofBits 0xc000000000000000) = "-2.0" := by decide +kernel
  have hunits : units (ofFloat (Float.ofBits 0xc000000000000000)) = 2 * unitsPerOne := by
    decide +kernel
  have hvalue : value (ofFloat (Float.ofBits 0xc000000000000000)) = 2 := by
    rw [value, hunits, Nat.cast_mul, mul_div_cancel_right₀ _ unitsPerOne_pos.ne', Nat.cast_ofNat]
  have hsign : signBit (Float.ofBits 0xc000000000000000) = true := by decide +kernel
  have hdeep : afterEquals ⟨"1-3", ⟨2⟩⟩ 1 = "-2.0" := by decide +kernel
  have hflat : afterEquals ⟨"1-3", ⟨1⟩⟩ 1 = "-2.0" := by decide +kernel
  have hlasting : Display.Lasting 2 (Float.ofBits 0xc000000000000000) :=
    ⟨by rw [hvalue]; norm_num, Or.inr (Nat.le_refl 2)⟩
  have hother : ¬Display.Lasting 1 (Float.ofBits 0xc000000000000000) := fun h => by
    have := h.sign
    rw [hsign] at this
    simp at this
  obtain ⟨-, -, hstays, -⟩ := equals_settles ⟨"1-3", ⟨2⟩⟩
  obtain ⟨-, -, -, hfails, hrest⟩ := equals_settles ⟨"1-3", ⟨1⟩⟩
  have hsecond := hfails _ (hflat.trans hnumber.symm) hother
  exact ⟨hdeep, (hstays _ (hdeep.trans hnumber.symm) hlasting).trans hdeep, hflat, hsecond,
    fun n => (hrest n).trans hsecond⟩

end Keypad

end Calculator
