import Calculator.Proofs.Shortest

/-!
# What the walk over the grids stops with

The decimals with a given last place form a grid. The selection walks from the grid of the leading
digit to finer ones and stops at the first grid that has a decimal in the cell of the magnitude. A
cell is an interval around the value of its magnitude, so a grid that has a decimal in it has one of
the two that stand next to the value; it is enough that the selection tries these.

The coarser grids have nothing in the cell. So a decimal of the cell with as many digits as the
selected one lies on its grid, or it is smaller than all decimals with that leading digit, and then
it is not nearer to the value than the first of them.

## Main definitions

* `Decimal.spacing`: the distance between two decimals of a grid.
* `Decimal.Offers`: a decimal of a grid is the nearest of those in the cell.
* `Decimal.Selects`: a decimal is offered by its grid, and coarser grids offer none.

## Main results

* `selects_coarsest`: this is what the walk stops with.
* `Selects.length_digits_le`: the decimal has no more digits than there are places from the leading
  one to that of its grid.
* `Selects.length_le`: fewer digits are not enough for the cell.
* `Selects.closest`: no decimal of the cell with as many digits is nearer to the value.
-/

namespace Calculator.Decimal

open Magnitude

/-! ### Grids -/

/-- The distance between two decimals of a grid, `10 ^ place` steps. -/
def spacing (place : ℕ) : ℚ :=
  10 ^ place / stepsPerOne

section Grids

variable {m place multiple k : ℕ} {e : ℤ}

theorem spacing_pos (place : ℕ) : 0 < spacing place := by
  have hone := stepsPerOne_pos
  unfold spacing
  positivity

theorem spacing_eq (place : ℕ) : spacing place = 10 ^ ((place : ℤ) - 1074) := by
  have hone : (stepsPerOne : ℚ) = 10 ^ (1074 : ℤ) := by
    rw [stepsPerOne_eq, Nat.cast_pow, Nat.cast_ofNat, ← zpow_natCast, Nat.cast_ofNat]
  rw [spacing, hone, zpow_sub₀ (by norm_num), zpow_natCast]

/-- A coarser grid leaves decimals of a finer one out. -/
theorem spacing_add (place k : ℕ) : spacing (place + k) = 10 ^ k * spacing place := by
  rw [spacing, spacing, pow_add]
  ring

/-- A decimal without digits behind the place of a grid is on the grid. -/
theorem exists_mul_spacing_eq (k : ℕ) (h : (place : ℤ) - 1074 ≤ e) :
    ∃ b : ℕ, (k : ℚ) * 10 ^ e = b * spacing place := by
  obtain ⟨j, hj⟩ : ∃ j : ℕ, e = j + ((place : ℤ) - 1074) := ⟨(e - (place - 1074)).toNat, by omega⟩
  refine ⟨k * 10 ^ j, ?_⟩
  rw [hj, zpow_add₀ (by norm_num), zpow_natCast, spacing_eq]
  push_cast
  ring

theorem mul_spacing_eq (multiple place : ℕ) :
    multiple * spacing place = (multiple * 10 ^ place : ℕ) / stepsPerOne := by
  rw [spacing]
  push_cast
  ring

theorem roundsTo_iff_inCell (h : 0 < m) :
    roundsTo m (multiple * 10 ^ place) = true ↔ InCell m (multiple * spacing place) := by
  rw [roundsTo_iff h, mul_spacing_eq]

/-- The last decimal of the grid up to the value is found by a division. -/
theorem mul_spacing_le_value_iff :
    multiple * spacing place ≤ value m ↔ multiple ≤ steps m / 10 ^ place := by
  rw [mul_spacing_eq, value_eq_steps, div_le_div_iff_of_pos_right stepsPerOne_pos, Nat.cast_le,
    Nat.le_div_iff_mul_le (Nat.pow_pos (by decide))]

theorem two_mul_value_lt_iff {a b : ℕ} :
    2 * value m < a * spacing place + b * spacing place ↔
      2 * steps m < a * 10 ^ place + b * 10 ^ place := by
  rw [mul_spacing_eq, mul_spacing_eq, value_eq_steps, ← add_div, ← mul_div_assoc,
    div_lt_div_iff_of_pos_right stepsPerOne_pos]
  exact_mod_cast Iff.rfl

/-! ### The decimal that a grid offers -/

/-- A decimal of the grid lies in the cell, not above the first one behind the value, and no decimal
of the grid in the cell is nearer. -/
structure Offers (m place multiple : ℕ) : Prop where
  inCell : InCell m (multiple * spacing place)
  nearest : ∀ b : ℕ, InCell m (b * spacing place) →
    |value m - multiple * spacing place| ≤ |value m - b * spacing place|
  multiple_le : multiple ≤ steps m / 10 ^ place + 1

/-- For every decimal of the grid in the cell, the decimal next to the value on the same side is in
the cell and not farther away. -/
theorem below_or_above {b : ℕ} (hb : InCell m (b * spacing place)) :
    ∃ c : ℕ, (c = steps m / 10 ^ place ∨ c = steps m / 10 ^ place + 1) ∧
      InCell m (c * spacing place) ∧
      |value m - c * spacing place| ≤ |value m - b * spacing place| := by
  have hspacing := spacing_pos place
  by_cases hle : b ≤ steps m / 10 ^ place
  · have hbelow := mul_spacing_le_value_iff.mpr (le_refl (steps m / 10 ^ place))
    have hmono : (b : ℚ) * spacing place ≤ (steps m / 10 ^ place : ℕ) * spacing place := by
      gcongr
    refine ⟨_, .inl rfl, hb.convex (inCell_value m) hmono hbelow, ?_⟩
    rw [abs_of_nonneg (by linarith), abs_of_nonneg (by linarith)]
    linarith
  · have habove : value m < (steps m / 10 ^ place + 1 : ℕ) * spacing place := by
      rw [← not_le, mul_spacing_le_value_iff]
      omega
    have hmono : (steps m / 10 ^ place + 1 : ℕ) * spacing place ≤ (b : ℚ) * spacing place := by
      gcongr
      omega
    refine ⟨_, .inr rfl, (inCell_value m).convex hb habove.le hmono, ?_⟩
    rw [abs_of_nonpos (by linarith), abs_of_nonpos (by linarith)]
    linarith

/-- A grid that offers nothing has nothing in the cell. -/
theorem not_inCell_of_onGrid? (h : 0 < m) (hgrid : onGrid? m place = none) (b : ℕ) :
    ¬InCell m (b * spacing place) := by
  intro hb
  obtain ⟨c, hc, hcell, -⟩ := below_or_above hb
  rw [← roundsTo_iff_inCell h] at hcell
  simp only [onGrid?, Nat.pow_eq] at hgrid
  split at hgrid
  case h_4 hbelow habove =>
    rcases hc with rfl | rfl
    · rw [hbelow] at hcell
      cases hcell
    · rw [habove] at hcell
      cases hcell
  all_goals cases hgrid

/-- What a grid offers is the nearer one of the two decimals next to the value, if both are in the
cell. -/
theorem offers_of_onGrid? (h : 0 < m) (hgrid : onGrid? m place = some multiple) :
    Offers m place multiple := by
  have hcell := (roundsTo_iff_inCell h).mp (roundsTo_of_onGrid? hgrid)
  -- It is enough to compare with the other one of the two.
  suffices hclosest : (multiple = steps m / 10 ^ place ∨ multiple = steps m / 10 ^ place + 1) ∧
      ∀ c : ℕ, (c = steps m / 10 ^ place ∨ c = steps m / 10 ^ place + 1) →
        roundsTo m (c * 10 ^ place) = true →
        |value m - multiple * spacing place| ≤ |value m - c * spacing place| by
    obtain ⟨hnext, hclosest⟩ := hclosest
    refine ⟨hcell, fun b hb => ?_, by omega⟩
    obtain ⟨c, hc, hcell', hle⟩ := below_or_above hb
    exact (hclosest c hc ((roundsTo_iff_inCell h).mpr hcell')).trans hle
  have hmono : ((steps m / 10 ^ place : ℕ) : ℚ) * spacing place <
      (steps m / 10 ^ place + 1 : ℕ) * spacing place := by
    have hspacing := spacing_pos place
    gcongr
    exact Nat.lt_succ_self _
  simp only [onGrid?, Nat.pow_eq] at hgrid
  split at hgrid
  case h_1 hbelow habove =>
    split at hgrid
    case isTrue hlower =>
      obtain rfl := Option.some.inj hgrid
      refine ⟨.inl rfl, ?_⟩
      rintro c (rfl | rfl) hc
      · exact le_rfl
      · rw [abs_sub_le_abs_sub_iff_below hmono]
        exact (two_mul_value_lt_iff.mpr hlower).le
    case isFalse hupper =>
      obtain rfl := Option.some.inj hgrid
      refine ⟨.inr rfl, ?_⟩
      rintro c (rfl | rfl) hc
      · rw [abs_sub_le_abs_sub_iff_above hmono, ← not_lt, two_mul_value_lt_iff]
        exact hupper
      · exact le_rfl
  case h_2 hbelow habove =>
    obtain rfl := Option.some.inj hgrid
    refine ⟨.inl rfl, ?_⟩
    rintro c (rfl | rfl) hc
    · exact le_rfl
    · rw [habove] at hc
      cases hc
  case h_3 hbelow habove =>
    obtain rfl := Option.some.inj hgrid
    refine ⟨.inr rfl, ?_⟩
    rintro c (rfl | rfl) hc
    · rw [hbelow] at hc
      cases hc
    · exact le_rfl
  case h_4 => cases hgrid

/-- On the finest grid the value itself is a decimal. -/
theorem offers_steps (m : ℕ) : Offers m 0 (steps m) := by
  have hvalue : steps m * spacing 0 = value m := by
    rw [mul_spacing_eq, pow_zero, mul_one, value_eq_steps]
  refine ⟨hvalue ▸ inCell_value m, fun b hb => ?_, by simp⟩
  rw [hvalue, sub_self, abs_zero]
  exact abs_nonneg _

end Grids

/-! ### The walk -/

/-- A grid offers a decimal, and of the grids from `10 ^ start` steps downwards it is the first that
has a decimal in the cell. -/
structure Selects (m start place multiple : ℕ) : Prop extends Offers m place multiple where
  place_le : place ≤ start
  not_inCell : ∀ p, place < p → p ≤ start → ∀ b : ℕ, ¬InCell m (b * spacing p)

theorem selects_coarsest {m : ℕ} (h : 0 < m) (start : ℕ) :
    Selects m start (coarsest m start).2 (coarsest m start).1 := by
  induction start with
  | zero => exact ⟨offers_steps m, le_rfl, fun p hp hp' => by simp [coarsest] at *; omega⟩
  | succ start ih =>
    rw [coarsest]
    split
    case h_1 multiple hgrid =>
      exact ⟨offers_of_onGrid? h hgrid, le_rfl, fun p hp hp' => by omega⟩
    case h_2 hgrid =>
      refine ⟨ih.toOffers, ih.place_le.trans start.le_succ, fun p hp hp' b => ?_⟩
      rcases Nat.le_succ_iff.mp hp' with hle | rfl
      · exact ih.not_inCell p hp hle b
      · exact not_inCell_of_onGrid? h hgrid b

/-! ### Few digits, and near -/

section Leading

variable {m leading place multiple k n : ℕ} {e : ℤ}

theorem length_trimZeros_le (digits : List Char) : (trimZeros digits).length ≤ digits.length := by
  obtain ⟨n, hn⟩ := exists_trimZeros_append digits
  have := congrArg List.length hn
  rw [List.length_append] at this
  omega

/-- The decimal has no more digits than there are places from the leading one to that of its
grid. -/
theorem Selects.length_digits_le (h : Selects m leading place multiple)
    (hupper : steps m < 10 ^ (leading + 1)) :
    (ofSteps multiple place).digits.length ≤ leading - place + 1 := by
  have hplace := h.place_le
  have hmultiple : multiple ≤ 10 ^ (leading - place + 1) := by
    have hdiv : steps m / 10 ^ place < 10 ^ (leading - place + 1) := by
      rw [Nat.div_lt_iff_lt_mul (Nat.pow_pos (by decide)), ← pow_add]
      rwa [show leading - place + 1 + place = leading + 1 by omega]
    have := h.multiple_le
    omega
  by_cases hlt : multiple < 10 ^ (leading - place + 1)
  · calc (ofSteps multiple place).digits.length
        ≤ (Nat.toDigits 10 multiple).length := length_trimZeros_le _
      _ ≤ leading - place + 1 := (Nat.length_toDigits_le_iff (by decide) (by omega)).mpr hlt
  · -- A carry into the next place: only on the coarsest grid, else a coarser one has the decimal.
    obtain rfl : multiple = 10 ^ (leading - place + 1) := by omega
    by_cases hstart : place = leading
    · have hone : (trimZeros (Nat.toDigits 10 (10 ^ (0 + 1)))).length ≤ 0 + 1 := by decide
      rwa [hstart, Nat.sub_self]
    · refine absurd h.inCell ?_
      have hcoarser : ((10 ^ (leading - place + 1) : ℕ) : ℚ) * spacing place =
          (10 ^ (leading - place) : ℕ) * spacing (place + 1) := by
        rw [spacing_add]
        push_cast
        ring
      rw [hcoarser]
      exact h.not_inCell (place + 1) (by omega) (by omega) _

/-- The value has the leading digit at the place `leading`. -/
theorem spacing_le_value (hlower : 10 ^ leading ≤ steps m) : spacing leading ≤ value m := by
  have hone : 1 ≤ steps m / 10 ^ leading := Nat.div_pos hlower (Nat.pow_pos (by decide))
  have hle := mul_spacing_le_value_iff.mpr hone
  rwa [Nat.cast_one, one_mul] at hle

/-- A decimal whose digits end in front of the leading place is smaller than the decimals with that
place. -/
theorem mul_zpow_lt_spacing (hk : k < 10 ^ n) (he : n + e ≤ leading - 1074) :
    (k : ℚ) * 10 ^ e < spacing leading := by
  have hk' : (k : ℚ) < 10 ^ (n : ℤ) := by exact_mod_cast hk
  calc (k : ℚ) * 10 ^ e < 10 ^ (n : ℤ) * 10 ^ e := by gcongr
    _ = 10 ^ (n + e) := (zpow_add₀ (by norm_num) _ _).symm
    _ ≤ 10 ^ ((leading : ℤ) - 1074) := zpow_le_zpow_right₀ (by norm_num) he
    _ = spacing leading := (spacing_eq leading).symm

/-- If a decimal of the cell lies below the leading place, the first decimal with that place is in
the cell too. -/
theorem inCell_spacing {q : ℚ} (hlower : 10 ^ leading ≤ steps m) (hcell : InCell m q)
    (hq : q < spacing leading) : InCell m (spacing leading) :=
  hcell.convex (inCell_value m) hq.le (spacing_le_value hlower)

/-- A decimal of the cell has at least as many digits as there are places from the leading one to
that of the selected grid. -/
theorem Selects.length_le (h : Selects m leading place multiple) (hm : 0 < m)
    (hlower : 10 ^ leading ≤ steps m) (hcell : InCell m (k * 10 ^ e)) (hk : k < 10 ^ n) :
    leading - place + 1 ≤ n := by
  by_contra hn
  have hpos : n ≠ 0 := by
    rintro rfl
    obtain rfl : k = 0 := by omega
    have := hcell.pos hm
    simp at this
  by_cases he : ((place + 1 : ℕ) : ℤ) - 1074 ≤ e
  · -- The decimal lies on a coarser grid than the selected one.
    obtain ⟨b, hb⟩ := exists_mul_spacing_eq k he
    rw [hb] at hcell
    exact h.not_inCell (place + 1) (by omega) (by omega) b hcell
  · -- It lies below the leading place, so the coarsest grid has a decimal in the cell.
    have hlt : (k : ℚ) * 10 ^ e < spacing leading := mul_zpow_lt_spacing hk (by omega)
    have hcoarsest := inCell_spacing hlower hcell hlt
    rw [← one_mul (spacing leading), ← Nat.cast_one] at hcoarsest
    exact h.not_inCell leading (by omega) le_rfl 1 hcoarsest

/-- No decimal of the cell with as many digits is nearer to the value. -/
theorem Selects.closest (h : Selects m leading place multiple) (hlower : 10 ^ leading ≤ steps m)
    (hcell : InCell m (k * 10 ^ e)) (hk : k < 10 ^ (leading - place + 1)) :
    |value m - multiple * spacing place| ≤ |value m - k * 10 ^ e| := by
  have hplace := h.place_le
  by_cases he : (place : ℤ) - 1074 ≤ e
  · obtain ⟨b, hb⟩ := exists_mul_spacing_eq k he
    rw [hb] at hcell ⊢
    exact h.nearest b hcell
  · -- The first decimal with the leading place is on the grid, and nearer.
    have hlt : (k : ℚ) * 10 ^ e < spacing leading := mul_zpow_lt_spacing hk (by omega)
    have hvalue := spacing_le_value hlower
    have hfirst : spacing leading = (10 ^ (leading - place) : ℕ) * spacing place := by
      rw [Nat.cast_pow, Nat.cast_ofNat, ← spacing_add, Nat.add_sub_cancel' hplace]
    calc |value m - multiple * spacing place|
        ≤ |value m - (10 ^ (leading - place) : ℕ) * spacing place| :=
          h.nearest _ (hfirst ▸ inCell_spacing hlower hcell hlt)
      _ = |value m - spacing leading| := by rw [hfirst]
      _ ≤ |value m - k * 10 ^ e| := by
        rw [abs_of_nonneg (by linarith), abs_of_nonneg (by linarith)]
        linarith

/-- The selected decimal is what the walk from the leading place stops with. -/
theorem exists_selects_shortest (hm : 0 < m) : ∃ leading place multiple,
    shortest m = ofSteps multiple place ∧ Selects m leading place multiple ∧
      10 ^ leading ≤ steps m ∧ steps m < 10 ^ (leading + 1) := by
  obtain ⟨leading, hlength, heq⟩ := exists_coarsest_eq_shortest m
  refine ⟨leading, _, _, heq, selects_coarsest hm leading, ?_, ?_⟩
  · have hpos : steps m ≠ 0 := fun hzero => by
      have hvalue := value_strictMono hm
      rw [value_zero, value_eq_steps, hzero, Nat.cast_zero, zero_div] at hvalue
      exact lt_irrefl 0 hvalue
    by_cases hleading : leading = 0
    · rw [hleading, pow_zero]
      exact Nat.one_le_iff_ne_zero.mpr hpos
    · rw [← not_lt, ← Nat.length_toDigits_le_iff (by decide) (Nat.pos_of_ne_zero hleading)]
      omega
  · rw [← Nat.length_toDigits_le_iff (by decide) leading.succ_pos]
    omega

/-- No decimal of the cell has fewer digits than the selected one. -/
theorem length_shortest_le (hm : 0 < m) (hcell : InCell m (k * 10 ^ e)) (hk : k < 10 ^ n) :
    (shortest m).digits.length ≤ n := by
  obtain ⟨leading, place, multiple, heq, hselects, hlower, hupper⟩ := exists_selects_shortest hm
  rw [heq]
  exact (hselects.length_digits_le hupper).trans (hselects.length_le hm hlower hcell hk)

/-- No decimal of the cell with as many digits as the selected one is nearer to the value. -/
theorem shortest_closest (hm : 0 < m) (hcell : InCell m (k * 10 ^ e))
    (hk : k < 10 ^ (shortest m).digits.length) :
    |value m - (shortest m).ratio| ≤ |value m - k * 10 ^ e| := by
  obtain ⟨leading, place, multiple, heq, hselects, hlower, hupper⟩ := exists_selects_shortest hm
  rw [heq] at hk ⊢
  rw [ratio_ofSteps, ← mul_spacing_eq]
  have hlength := hselects.length_digits_le hupper
  exact hselects.closest hlower hcell (hk.trans_le (Nat.pow_le_pow_right (by decide) hlength))

end Leading

end Calculator.Decimal
