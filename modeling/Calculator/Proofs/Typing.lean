import Calculator.Keypad
import Calculator.Proofs.Continuations
import Calculator.Proofs.Nesting
import Calculator.Proofs.ReadBack
import Calculator.Proofs.Completeness

/-!
# Typing on after a result

What stands on the display after a result is a text like any other. If the result was written
positionally, its text is a numeral, maybe with a minus sign in front, and typing on calculates with
it as if the text that gave the result stood there in parentheses.

Both texts are parsed with the same text behind the group and behind the numeral. Up to there a
parse finds equal values, and from there on the two go on in the same way. A minus sign takes the
power behind it along, which a group does not; so behind a negative result no caret may follow.

## Main results

* `exists_numeral_of_range`: zero and the magnitudes from `10 ^ -4` up to `10 ^ 16` are displayed as
  numerals of the same value.
* `alike_openFactor`: a group and the text of its value reply alike in front of the same text.
* `pressAll_insert_after_result`: the law for the keypad.
-/

namespace Calculator

open Magnitude

/-! ### Displayed results are numerals -/

section Range

variable {m : ℕ}

/-- The positional magnitudes start with `10 ^ -4`. -/
theorem positionalFrom_le_iff : Display.positionalFrom ≤ m ↔ 1 / 10 ^ 4 ≤ value m := by
  have hunits : units (Display.positionalFrom - 1) * 10 ^ 4 < unitsPerOne := by decide +kernel
  have hunits' : unitsPerOne ≤ units Display.positionalFrom * 10 ^ 4 := by decide +kernel
  have hbelow : value (Display.positionalFrom - 1) < 1 / 10 ^ 4 := by
    rw [value, div_lt_div_iff₀ unitsPerOne_pos (by norm_num), one_mul]
    exact_mod_cast hunits
  have hfrom : 1 / 10 ^ 4 ≤ value Display.positionalFrom := by
    rw [value, div_le_div_iff₀ (by norm_num) unitsPerOne_pos, one_mul]
    exact_mod_cast hunits'
  constructor
  · exact fun h => hfrom.trans (value_strictMono.monotone h)
  · intro h
    have hlt := value_strictMono.lt_iff_lt.mp (hbelow.trans_le h)
    omega

/-- The positional magnitudes end in front of `10 ^ 16`. -/
theorem lt_positionalBelow_iff : m < Display.positionalBelow ↔ value m < 10 ^ 16 := by
  have hunits : units Display.positionalBelow = 10 ^ 16 * unitsPerOne := by decide +kernel
  have hbelow : value Display.positionalBelow = 10 ^ 16 := by
    rw [value, hunits, Nat.cast_mul, mul_div_cancel_right₀ _ unitsPerOne_pos.ne', Nat.cast_pow,
      Nat.cast_ofNat]
  rw [← hbelow, value_strictMono.lt_iff_lt]

/-- The magnitudes that are written positionally. -/
theorem positional_iff :
    m = 0 ∨ Display.positionalFrom ≤ m ∧ m < Display.positionalBelow ↔
      value m = 0 ∨ 1 / 10 ^ 4 ≤ value m ∧ value m < 10 ^ 16 := by
  rw [positionalFrom_le_iff, lt_positionalBelow_iff, ← value_zero,
    value_strictMono.injective.eq_iff]

/-- Zero and the magnitudes from `10 ^ -4` up to `10 ^ 16` are displayed as numerals of the same
value. -/
theorem exists_numeral_of_range (h : value m = 0 ∨ 1 / 10 ^ 4 ≤ value m ∧ value m < 10 ^ 16) :
    m < infinite ∧ (∀ c ∈ Display.magnitude m, isNumeralChar c = true) ∧
      ∃ n, Numeral.ofRun? (Display.magnitude m) = some n ∧ n.value = toFloat m := by
  have hlayout := positional_iff.mpr h
  have hfinite : m < infinite := by
    have := Reading.positionalBelow_lt
    omega
  obtain ⟨hchars, n, hn, hnearest⟩ := Reading.exists_ofRun?_magnitude hlayout
  exact ⟨hfinite, hchars, n, hn, Numeral.value_eq_toFloat hnearest⟩

end Range

/-- A double of which the sign bit is set is the negation of its magnitude. -/
theorem eq_toFloat_or_neg {x : Float} (h : ofFloat x ≤ infinite) :
    x = if signBit x = true then -toFloat (ofFloat x) else toFloat (ofFloat x) := by
  obtain ⟨hmagnitude, hplus⟩ := toFloat_spec h
  obtain ⟨hmagnitude', hminus⟩ := neg_spec (hmagnitude.trans_le h)
  rw [eq_iff_signBit_ofFloat]
  split_ifs with hsign
  · rw [hminus, hplus, hmagnitude', hmagnitude, hsign]
    exact ⟨rfl, rfl⟩
  · rw [hplus, hmagnitude, Bool.eq_false_iff.mpr hsign]
    exact ⟨rfl, rfl⟩

/-! ### A group and the text of its value -/

namespace Parser

open Grammar

variable {s s' t t' u : State} {e e' : Expr} {n : Numeral} {lead lead' limit : Nat}
  {w run tail text text' : List Char}

/-- A primary starts here, and not a sign. -/
def State.AtPrimary (s : State) : Prop :=
  s.Skips [] s ∧ s.next? Sign.ofChar? = none

/-- A run of digits and points in front of other text is read as the number it denotes. -/
theorem runs_openPrimary_numeral (hn : Numeral.ofRun? run = some n)
    (hchars : ∀ c ∈ run, isNumeralChar c = true) (ht : s.Passes run t)
    (hbehind : ∀ c ∈ t.cursor.rest.head?, isNumeralChar c = false) :
    s.AtPrimary ∧ Runs .openPrimary s ⟨.ok (.numeral n), t⟩ := by
  have hne : run ≠ [] := by
    rintro rfl
    cases hn
  have hscan : s.Scans isNumeralChar run t := ⟨ht, hchars, hbehind⟩
  refine ⟨?_, .stop (.numeral hscan hne hn)⟩
  exact Completes.skips_of_scans .nil (.refl s) hscan hne (by decide) (by rintro (_ | _) <;> decide)

/-- A group in front of other text is read as its content. -/
theorem runs_openPrimary_group (hw : Completes .expression e w)
    (ht : s.Passes ('(' :: (w ++ [')'])) t) (hdepth : s.depth + e.nest ≤ s.limit) :
    s.AtPrimary ∧ ∃ u, s.Reaches ('(' :: (w ++ [')'])) u ∧ u.cursor.rest = t.cursor.rest ∧
      Runs .openPrimary s ⟨.ok (.group e), u⟩ := by
  obtain ⟨u, hu, hrun⟩ := hw.runs_group ht hdepth
  refine
    ⟨Completes.skips_of_peek .nil (.refl s) ht.peek_eq (by decide) (by decide), u, hu, ?_, hrun⟩
  rw [hu.cursor.unique ht.cursor]

/-- Two primaries of equal values, with the same text behind them, are alike as factors. -/
theorem alike_openFactor (hs : s.AtPrimary) (hs' : s'.AtPrimary) (hdepth : s'.depth = s.depth)
    (hprimary : Runs .openPrimary s ⟨.ok e, t⟩) (hprimary' : Runs .openPrimary s' ⟨.ok e', t'⟩)
    (hvalue : e.value = e'.value) (hstate : t.Alike lead lead' t') {reply : Reply Expr}
    (h : Runs .openFactor s reply) :
    ∃ reply', Runs .openFactor s' reply' ∧ reply.Alike lead lead' reply' := by
  refine Starts.alike_around (.primary hs.1 hs.2) (.primary hs'.1 hs'.2) hdepth ?_
    (fun _ _ hvalue => .openPower hvalue) h
  intro reply hreply
  rw [hreply.unique hprimary]
  exact ⟨_, hprimary', .ok hvalue hstate⟩

theorem State.Skips.atDepth {g : List Char} (depth : Nat) (h : s.Skips g t) :
    (s.atDepth depth).Skips g (t.atDepth depth) := by
  refine ⟨⟨h.passes.cursor, ?_⟩, h.gap, h.stop⟩
  rw [h.passes.eq]
  rfl

/-- A primary and a minus sign with a primary of the negated value are alike as factors, unless a
power follows. -/
theorem alike_openFactor_minus (hs : s.AtPrimary) (hminus : s'.Passes ['-'] u)
    (hu : u.enter.AtPrimary) (hdepth : s'.depth = s.depth) (hlimit : s'.depth < s'.limit)
    (hprimary : Runs .openPrimary s ⟨.ok e, t⟩)
    (hprimary' : Runs .openPrimary u.enter ⟨.ok e', t'⟩) (hvalue : e.value = -e'.value)
    (hstate : t.Alike lead lead' (t'.atDepth s.depth)) (hcaret : t.skipSpaces.peek ≠ some '^')
    {reply : Reply Expr} (h : Runs .openFactor s reply) :
    ∃ reply', Runs .openFactor s' reply' ∧ reply.Alike lead lead' reply' := by
  obtain ⟨g, hskip⟩ := t.skips_skipSpaces
  obtain ⟨v, hskip', hv⟩ := hstate.skips hskip
  have htdepth : t.depth = s.depth := hprimary.depth_eq
  -- Neither side finds a power, so both factors end behind the spaces.
  have hrun : Runs .openFactor s ⟨.ok e, t.skipSpaces⟩ := by
    refine .next (.primary hs.1 hs.2) hprimary ?_
    rw [State.atDepth_of_eq htdepth]
    exact .stop (.power hskip hcaret)
  have hopen : Runs .openFactor u.enter ⟨.ok e', v.atDepth u.enter.depth⟩ := by
    refine .next (.primary hu.1 hu.2) hprimary' (.stop (.power (hskip'.atDepth _) ?_))
    exact hv.peek_eq ▸ hcaret
  have hfactor : Runs .factor u ⟨.ok e', v.atDepth u.depth⟩ := by
    refine runs_factor (t := v.atDepth u.enter.depth) ?_ hopen
    rwa [hminus.depth_eq, hminus.limit_eq]
  have hrun' : Runs .openFactor s' ⟨.ok (.signed .minus e'), v⟩ := by
    have hvdepth : v.depth = s'.depth := hskip'.passes.depth_eq.trans hdepth.symm
    have hend : (v.atDepth u.depth).atDepth s'.depth = v := State.atDepth_of_eq hvdepth
    have hsign : Starts .openFactor s' .factor u fun operand => .done (.signed .minus operand) :=
      .sign .nil hminus rfl
    rw [← hend]
    exact .next hsign hfactor (.stop .done)
  rw [h.unique hrun]
  exact ⟨_, hrun', .ok hvalue hv⟩

/-- What is alike as a factor is so as an expression, at the start of a text. -/
theorem alike_start (hlimit : 0 < limit)
    (h : ∀ reply, Runs .openFactor (State.start limit text).enter reply →
      ∃ reply', Runs .openFactor (State.start limit text').enter reply' ∧
        reply.Alike lead lead' reply') {reply : Reply Expr}
    (hparse : Parses limit text reply) :
    ∃ reply', Parses limit text' reply' ∧ reply.Alike lead lead' reply' := by
  have hfactor : ∀ reply, Runs .factor (.start limit text) reply →
      ∃ reply', Runs .factor (.start limit text') reply' ∧ reply.Alike lead lead' reply' :=
    fun _ => Starts.alike_around (.factor hlimit) (.factor hlimit) rfl h fun _ _ h => .done h
  have hterm : ∀ reply, Runs (.chain .product) (.start limit text) reply →
      ∃ reply', Runs (.chain .product) (.start limit text') reply' ∧
        reply.Alike lead lead' reply' :=
    fun _ => Starts.alike_around .chain .chain rfl hfactor fun _ _ h => .more .product h
  have hexpression : ∀ reply, Runs (.chain .sum) (.start limit text) reply →
      ∃ reply', Runs (.chain .sum) (.start limit text') reply' ∧ reply.Alike lead lead' reply' :=
    fun _ => Starts.alike_around .chain .chain rfl hterm fun _ _ h => .more .sum h
  exact hparse.alike hexpression

section Texts

variable (hw : Completes .expression e w) (hnest : 1 + e.nest ≤ limit)
  (hn : Numeral.ofRun? run = some n) (hchars : ∀ c ∈ run, isNumeralChar c = true)
  (hbehind : ∀ c ∈ tail.head?, isNumeralChar c = false)

include hw hnest hn hchars hbehind

/-- A text that starts with a group, and one that starts with a numeral of the same value
instead. -/
theorem Parses.exists_numeral (hvalue : e.value = n.value) {reply : Reply Expr}
    (h : Parses limit ('(' :: (w ++ [')']) ++ tail) reply) :
    ∃ reply', Parses limit (run ++ tail) reply' ∧
      reply.Alike (byteLength ('(' :: (w ++ [')']))) (byteLength run) reply' := by
  obtain ⟨t, ht, htrest⟩ := State.exists_passes
    (s := (State.start limit ('(' :: (w ++ [')']) ++ tail)).enter) rfl
  obtain ⟨t', ht', htrest'⟩ := State.exists_passes
    (s := (State.start limit (run ++ tail)).enter) rfl
  obtain ⟨hs, u, hu, hurest, hprimary⟩ := runs_openPrimary_group hw ht hnest
  obtain ⟨hs', hprimary'⟩ := runs_openPrimary_numeral hn hchars ht' (by rwa [htrest'])
  have hstate := State.Alike.of_reaches hu ht'.reaches (by rw [htrest', hurest, htrest]) rfl rfl rfl
  refine alike_start (by omega) (fun reply hrun => ?_) h
  exact alike_openFactor hs hs' rfl hprimary hprimary' hvalue hstate hrun

/-- A text that starts with a group, and one that starts with a minus sign and a numeral of the
negated value instead. -/
theorem Parses.exists_minus (hlimit : 1 < limit)
    (hcaret : (tail.dropWhile (· == ' ')).head? ≠ some '^') (hvalue : e.value = -n.value)
    {reply : Reply Expr} (h : Parses limit ('(' :: (w ++ [')']) ++ tail) reply) :
    ∃ reply', Parses limit ('-' :: run ++ tail) reply' ∧
      reply.Alike (byteLength ('(' :: (w ++ [')']))) (byteLength ('-' :: run)) reply' := by
  obtain ⟨t, ht, htrest⟩ := State.exists_passes
    (s := (State.start limit ('(' :: (w ++ [')']) ++ tail)).enter) rfl
  obtain ⟨m, hm, hmrest⟩ := State.exists_passes (w := ['-'])
    (s := (State.start limit ('-' :: run ++ tail)).enter) rfl
  obtain ⟨t', ht', htrest'⟩ := State.exists_passes (s := m.enter) hmrest
  obtain ⟨hs, u, hu, hurest, hprimary⟩ := runs_openPrimary_group hw ht hnest
  obtain ⟨hm', hprimary'⟩ := runs_openPrimary_numeral hn hchars ht' (by rwa [htrest'])
  have hbehind' := hm.reaches.restore.trans (ht'.reaches.atDepth)
  have hrest : t'.cursor.rest = u.cursor.rest := by rw [htrest', hurest, htrest]
  have hstate := State.Alike.of_reaches hu hbehind' hrest rfl rfl rfl
  refine alike_start (by omega) (fun reply hrun => ?_) h
  refine alike_openFactor_minus hs hm hm' rfl hlimit hprimary hprimary' hvalue hstate ?_ hrun
  have hnext : u.skipSpaces.peek = (u.cursor.rest.dropWhile (· == ' ')).head? := rfl
  rwa [hnext, hurest, htrest]

end Texts

/-- Replies that are alike are shown alike. -/
theorem Reply.Alike.outcome_eq {reply reply' : Reply Expr} (h : reply.Alike lead lead' reply') :
    Display.outcome (reply.result.map Expr.value) =
      Display.outcome (reply'.result.map Expr.value) := by
  cases h with
  | ok hvalue =>
    show Display.number _ = Display.number _
    rw [hvalue]
  | error => rfl

end Parser

open Calculator.Parser Grammar

/-- A limit that is larger than the number of characters does not matter. -/
theorem Display.expression_eq_of_length_lt {d d' : ℕ} {text : String} (h : text.length < d)
    (hle : d ≤ d') : Display.expression ⟨d'⟩ text = Display.expression ⟨d⟩ text := by
  have hdeep : ¬(parse d text.toList).TooDeep := by
    intro hdeep
    have hsolid := hdeep.le_solidCount
    have hcount : solidCount text.toList ≤ text.toList.length := List.countP_le_length
    rw [String.length_toList] at hcount
    omega
  show Display.outcome ((parse d' text.toList).result.map Expr.value) =
    Display.outcome ((parse d text.toList).result.map Expr.value)
  rw [parse_result_of_le hdeep hle]

/-- Typing on behind the text of a result shows what typing on behind the text that gave the result,
in parentheses, shows. -/
theorem Display.expression_number_append {d : ℕ} {s t : String} {v : Float}
    (hv : evaluate ⟨d⟩ s = .ok v)
    (hrange : value (ofFloat v) = 0 ∨
      1 / 10 ^ 4 ≤ value (ofFloat v) ∧ value (ofFloat v) < 10 ^ 16)
    (ht : ∀ c ∈ t.toList.head?, isNumeralChar c = false)
    (hcaret : signBit v = true → (t.toList.dropWhile (· == ' ')).head? ≠ some '^')
    (hlength : ("(" ++ s ++ ")" ++ t).length < d) (hlength' : (number v ++ t).length < d) :
    Display.expression ⟨d⟩ ("(" ++ s ++ ")" ++ t) = Display.expression ⟨d⟩ (number v ++ t) := by
  obtain ⟨hfinite, hchars, n, hn, hvalue⟩ := exists_numeral_of_range hrange
  obtain ⟨e, hw, hnest, he⟩ := exists_completes_of_evaluate hv
  -- The group needs one factor more than its content, and a minus sign needs two.
  rw [← expression_eq_of_length_lt hlength (d.le_add_right 2),
    ← expression_eq_of_length_lt hlength' (d.le_add_right 2)]
  have htext : ("(" ++ s ++ ")" ++ t).toList = '(' :: (s.toList ++ [')']) ++ t.toList := by simp
  have hgroup := parses_parse (d + 2) ('(' :: (s.toList ++ [')']) ++ t.toList)
  have hsign := eq_toFloat_or_neg hfinite.le
  rw [← hvalue] at hsign
  obtain ⟨reply', lead, lead', hparse', hreply⟩ : ∃ reply' lead lead',
      Parses (d + 2) (number v ++ t).toList reply' ∧
      (parse (d + 2) ("(" ++ s ++ ")" ++ t).toList).Alike lead lead' reply' := by
    rw [htext, String.toList_append, Reading.toList_number hfinite.le]
    split_ifs at hsign ⊢ with hminus
    · obtain ⟨reply', h⟩ := hgroup.exists_minus hw (by omega) hn hchars ht (by omega)
        (hcaret hminus) (he.trans hsign)
      exact ⟨reply', _, _, h⟩
    · obtain ⟨reply', h⟩ := hgroup.exists_numeral hw (by omega) hn hchars ht (he.trans hsign)
      exact ⟨reply', _, _, h⟩
  show Display.outcome ((parse (d + 2) ("(" ++ s ++ ")" ++ t).toList).result.map Expr.value) =
    Display.outcome ((parse (d + 2) (number v ++ t).toList).result.map Expr.value)
  rw [hreply.outcome_eq, hparse'.parse_eq]

/-- Typing on after a result means calculating with the result, if it was written positionally and
what is typed neither adds to its digits nor raises a negative result to a power. The display ends
up as if the text that gave the result had been typed in parentheses. -/
theorem Keypad.pressAll_insert_after_result {d : ℕ} {s t : String} {v : Float}
    (hv : evaluate ⟨d⟩ s = .ok v)
    (hrange : value (ofFloat v) = 0 ∨
      1 / 10 ^ 4 ≤ value (ofFloat v) ∧ value (ofFloat v) < 10 ^ 16)
    (ht : ∀ c ∈ t.toList.head?, isNumeralChar c = false)
    (hcaret : signBit v = true → (t.toList.dropWhile (· == ' ')).head? ≠ some '^')
    (hlength : ("(" ++ s ++ ")" ++ t).length < d)
    (hlength' : (Display.number v ++ t).length < d) :
    (pressAll ⟨"", ⟨d⟩⟩ [.insert s, .equals, .insert t, .equals]).display =
      (pressAll ⟨"", ⟨d⟩⟩ [.insert ("(" ++ s ++ ")" ++ t), .equals]).display := by
  have hresult : Display.expression ⟨d⟩ s = Display.number v := by
    rw [Display.expression, hv, Display.outcome]
  simp only [pressAll, List.foldl_cons, List.foldl_nil, press, String.empty_append, hresult]
  exact (Display.expression_number_append hv hrange ht hcaret hlength hlength').symm

/-- A negative result is taken as a whole by what is typed behind it, here a product. -/
theorem Keypad.pressAll_insert_after_result_negative :
    (pressAll ⟨"", ⟨16⟩⟩ [.insert "1-3", .equals, .insert " *2", .equals]).display =
        (pressAll ⟨"", ⟨16⟩⟩ [.insert "(1-3) *2", .equals]).display ∧
      (pressAll ⟨"", ⟨16⟩⟩ [.insert "(1-3) *2", .equals]).display = "-4.0" := by
  have hv : evaluate ⟨16⟩ "1-3" = .ok (Float.ofBits 0xc000000000000000) := by decide +kernel
  have hunits : units (ofFloat (Float.ofBits 0xc000000000000000)) = 2 * unitsPerOne := by
    decide +kernel
  have hvalue : value (ofFloat (Float.ofBits 0xc000000000000000)) = 2 := by
    rw [value, hunits, Nat.cast_mul, mul_div_cancel_right₀ _ unitsPerOne_pos.ne', Nat.cast_ofNat]
  have hnumber : Display.number (Float.ofBits 0xc000000000000000) = "-2.0" := by decide +kernel
  refine ⟨?_, by decide +kernel⟩
  exact pressAll_insert_after_result hv (by rw [hvalue]; norm_num) (by simp [isNumeralChar])
    (fun _ => by decide) (by decide) (by rw [hnumber]; decide)

end Calculator
