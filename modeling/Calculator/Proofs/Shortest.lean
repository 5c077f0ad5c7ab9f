import Calculator.Decimal.Shortest
import Calculator.Proofs.Rounding
import Mathlib.Algebra.Order.Field.Power
import Mathlib.Data.List.TakeWhile

/-!
# The selected decimal rounds to its magnitude

The exact comparisons on steps of `10 ^ -1074` decide whether a decimal lies in the cell of a
magnitude. Whatever grid the selection stops at, the decimal it takes has passed them, so its digits
and its point denote a rational number that rounds to the magnitude.

## Main definitions

* `Decimal.ratio`: the rational number that a decimal denotes.
* `Decimal.Proper`: a decimal that has digits and nothing else.

## Main results

* `roundsTo_iff`: the comparisons decide the cell of a magnitude.
* `inCell_ratio_shortest`: the selected decimal lies in the cell of its magnitude.
-/

namespace Calculator.Decimal

open Magnitude

/-! ### Steps -/

/-- The steps that make up one, `10 ^ 1074` of them. -/
def stepsPerOne : ℕ :=
  unitsPerOne * stepsPerUnit

theorem stepsPerOne_eq : stepsPerOne = 10 ^ 1074 := by
  have hunit : stepsPerUnit = 5 ^ 1074 := by
    unfold stepsPerUnit
    generalize 1074 = n
    exact Nat.pow_eq
  rw [stepsPerOne, unitsPerOne_eq, hunit]
  generalize 1074 = n
  rw [← Nat.mul_pow]

theorem stepsPerOne_pos : (0 : ℚ) < stepsPerOne := by
  rw [stepsPerOne_eq]
  generalize 1074 = n
  positivity

theorem value_eq_steps (m : ℕ) : value m = steps m / stepsPerOne := by
  have hunit : (stepsPerUnit : ℚ) ≠ 0 := by
    have := stepsPerOne_pos
    rw [stepsPerOne, Nat.cast_mul] at this
    exact right_ne_zero_of_mul this.ne'
  rw [value, steps, stepsPerOne, Nat.cast_mul, Nat.cast_mul, mul_div_mul_right _ _ hunit]

section Comparisons

variable {a b c m : ℕ}

theorem value_add_le_iff :
    value a + value b ≤ 2 * (c / stepsPerOne) ↔ steps a + steps b ≤ 2 * c := by
  rw [value_eq_steps, value_eq_steps, ← add_div, ← mul_div_assoc,
    div_le_div_iff_of_pos_right stepsPerOne_pos]
  exact_mod_cast Iff.rfl

theorem le_value_add_iff :
    2 * (c / stepsPerOne) ≤ value a + value b ↔ 2 * c ≤ steps a + steps b := by
  rw [value_eq_steps, value_eq_steps, ← add_div, ← mul_div_assoc,
    div_le_div_iff_of_pos_right stepsPerOne_pos]
  exact_mod_cast Iff.rfl

theorem value_add_eq_iff :
    value a + value b = 2 * (c / stepsPerOne) ↔ steps a + steps b = 2 * c := by
  rw [le_antisymm_iff, value_add_le_iff, le_value_add_iff, ← le_antisymm_iff]

/-- The comparisons decide whether a number of steps lies in the cell of a magnitude. -/
theorem roundsTo_iff (h : 0 < m) : roundsTo m c = true ↔ InCell m (c / stepsPerOne) := by
  obtain ⟨k, rfl⟩ : ∃ k, m = k + 1 := ⟨m - 1, by omega⟩
  have hcell : InCell (k + 1) (c / stepsPerOne) ↔
      steps k + steps (k + 1) ≤ 2 * c ∧ (steps k + steps (k + 1) = 2 * c → Even (k + 1)) ∧
      2 * c ≤ steps (k + 1) + steps (k + 1 + 1) ∧
      (steps (k + 1) + steps (k + 1 + 1) = 2 * c → Even (k + 1)) := by
    constructor
    · intro h
      exact ⟨value_add_le_iff.mp (h.above k rfl),
        fun htie => h.even_above k rfl (value_add_eq_iff.mpr htie),
        le_value_add_iff.mp h.below,
        fun htie => h.even_below (value_add_eq_iff.mpr htie).symm⟩
    · rintro ⟨habove, heven_above, hbelow, heven_below⟩
      refine ⟨fun n hn => ?_, fun n hn htie => ?_, le_value_add_iff.mpr hbelow,
        fun htie => heven_below (value_add_eq_iff.mp htie.symm)⟩
      · obtain rfl : k = n := by omega
        exact value_add_le_iff.mpr habove
      · obtain rfl : k = n := by omega
        exact heven_above (value_add_eq_iff.mp htie)
  rw [hcell, roundsTo, Nat.even_iff]
  by_cases heven : (k + 1) % 2 = 0
  · simp [heven]
  · simp only [heven, if_false, Bool.and_eq_true, decide_eq_true_eq, Nat.add_sub_cancel,
      imp_false]
    omega

end Comparisons

/-! ### The selection -/

theorem roundsTo_of_onGrid? {m place multiple : ℕ} (h : onGrid? m place = some multiple) :
    roundsTo m (multiple * 10 ^ place) = true := by
  simp only [onGrid?, Nat.pow_eq] at h
  split at h
  case h_1 hbelow habove =>
    rw [← Option.some.inj h]
    split
    · exact hbelow
    · exact habove
  case h_2 hbelow _ => exact Option.some.inj h ▸ hbelow
  case h_3 _ habove => exact Option.some.inj h ▸ habove
  case h_4 => cases h

theorem roundsTo_steps {m : ℕ} (h : 0 < m) : roundsTo m (steps m) = true := by
  rw [roundsTo_iff h, ← value_eq_steps]
  exact inCell_value m

/-- Wherever the walk over the grids stops, the decimal taken rounds to the magnitude. -/
theorem roundsTo_coarsest {m : ℕ} (h : 0 < m) (place : ℕ) :
    roundsTo m ((coarsest m place).1 * 10 ^ (coarsest m place).2) = true := by
  induction place with
  | zero => simpa [coarsest] using roundsTo_steps h
  | succ place ih =>
    rw [coarsest]
    split
    · exact roundsTo_of_onGrid? ‹_›
    · exact ih

/-! ### Digits and points -/

/-- The number that a decimal denotes. -/
def ratio (d : Decimal) : ℚ :=
  Nat.ofDigitChars 10 d.digits 0 * 10 ^ (d.point - d.digits.length)

/-- The decimal has a digit, and no characters but digits. -/
structure Proper (d : Decimal) : Prop where
  ne_nil : d.digits ≠ []
  isDigit : ∀ c ∈ d.digits, c.isDigit = true

theorem exists_trimZeros_append (digits : List Char) :
    ∃ n, digits = trimZeros digits ++ List.replicate n '0' := by
  refine ⟨(digits.reverse.takeWhile (· == '0')).length, ?_⟩
  have hzeros : (digits.reverse.takeWhile (· == '0')).reverse =
      List.replicate (digits.reverse.takeWhile (· == '0')).length '0' := by
    rw [List.eq_replicate_iff]
    refine ⟨List.length_reverse, fun c hc => ?_⟩
    simpa using List.mem_takeWhile_imp (List.mem_reverse.mp hc)
  rw [← hzeros, trimZeros, ← List.reverse_append, List.takeWhile_append_dropWhile,
    List.reverse_reverse]

/-- Zeros at the end count in the point only. -/
theorem ratio_ofSteps (multiple place : ℕ) :
    (ofSteps multiple place).ratio = (multiple * 10 ^ place : ℕ) / stepsPerOne := by
  obtain ⟨n, hn⟩ := exists_trimZeros_append (Nat.toDigits 10 multiple)
  have hlength : (Nat.toDigits 10 multiple).length =
      (trimZeros (Nat.toDigits 10 multiple)).length + n := by
    have := congrArg List.length hn
    rwa [List.length_append, List.length_replicate] at this
  have hmultiple : (multiple : ℚ) =
      10 ^ n * Nat.ofDigitChars 10 (trimZeros (Nat.toDigits 10 multiple)) 0 := by
    have := congrArg (Nat.ofDigitChars 10 · 0) hn
    rw [Nat.ofDigitChars_ten_toDigits, Nat.ofDigitChars_append,
      Nat.ofDigitChars_replicate_zero] at this
    exact_mod_cast this
  have hone : (stepsPerOne : ℚ) = 10 ^ (1074 : ℤ) := by
    rw [stepsPerOne_eq, Nat.cast_pow, Nat.cast_ofNat, ← zpow_natCast, Nat.cast_ofNat]
  have hexponent : (((Nat.toDigits 10 multiple).length + place : ℕ) : ℤ) - 1074 -
      (trimZeros (Nat.toDigits 10 multiple)).length = (n : ℤ) + place - 1074 := by
    rw [hlength]
    push_cast
    ring
  simp only [ratio, ofSteps, hexponent]
  rw [zpow_sub₀ (by norm_num), zpow_add₀ (by norm_num), zpow_natCast, zpow_natCast, Nat.cast_mul,
    hmultiple, hone, Nat.cast_pow, Nat.cast_ofNat]
  ring

theorem isDigit_trimZeros {digits : List Char} (h : ∀ c ∈ digits, c.isDigit = true) :
    ∀ c ∈ trimZeros digits, c.isDigit = true := by
  obtain ⟨n, hn⟩ := exists_trimZeros_append digits
  exact fun c hc => h c (hn ▸ List.mem_append_left _ hc)

section Shortest

variable {m : ℕ}

/-- The walk starts at the place of the leading digit. -/
theorem exists_coarsest_eq_shortest (m : ℕ) : ∃ leading,
    (Nat.toDigits 10 (steps m)).length = leading + 1 ∧
      shortest m = ofSteps (coarsest m leading).1 (coarsest m leading).2 := by
  -- The number of steps is too large for its digits to be counted. Unfolding the selection as a
  -- function, and forgetting whose digits they are, leaves nothing that could be computed.
  generalize hselect : shortest = select
  delta shortest at hselect
  have hd := congrFun hselect m
  have hpos : 0 < (Nat.toDigits 10 (steps m)).length := Nat.length_toDigits_pos
  beta_reduce at hd
  generalize (Nat.toDigits 10 (steps m)).length = length at hd hpos ⊢
  obtain ⟨leading, rfl⟩ := Nat.exists_eq_add_one.mpr hpos
  exact ⟨leading, rfl, hd.symm⟩

theorem exists_shortest_eq (h : 0 < m) : ∃ multiple place,
    shortest m = ofSteps multiple place ∧ roundsTo m (multiple * 10 ^ place) = true := by
  obtain ⟨leading, -, heq⟩ := exists_coarsest_eq_shortest m
  exact ⟨_, _, heq, roundsTo_coarsest h leading⟩

/-- The selected decimal lies in the cell of its magnitude. -/
theorem inCell_ratio_shortest (h : 0 < m) : InCell m (shortest m).ratio := by
  obtain ⟨multiple, place, heq, hrounds⟩ := exists_shortest_eq h
  rw [heq, ratio_ofSteps, ← roundsTo_iff h]
  exact hrounds

/-- Only zero has zero in its cell, so the selected decimal is left with a digit. -/
theorem proper_shortest (h : 0 < m) : (shortest m).Proper := by
  constructor
  case ne_nil =>
    intro hnil
    have hcell := inCell_ratio_shortest h
    rw [ratio, hnil, Nat.ofDigitChars_nil, Nat.cast_zero, zero_mul] at hcell
    exact lt_irrefl 0 (hcell.pos h)
  case isDigit =>
    obtain ⟨multiple, place, heq, -⟩ := exists_shortest_eq h
    rw [heq]
    exact isDigit_trimZeros fun c hc => Nat.isDigit_of_mem_toDigits (by decide) (by decide) hc

end Shortest

end Calculator.Decimal
