import Calculator.Binary.Magnitude
import Mathlib.Algebra.Order.Field.Basic
import Mathlib.Algebra.Order.Ring.Rat
import Mathlib.Algebra.Ring.Parity
import Mathlib.Data.Nat.Log
import Mathlib.Tactic.FieldSimp
import Mathlib.Tactic.Linarith
import Mathlib.Tactic.Ring

/-!
# Rounding to the nearest double

What it means that a double is nearest to a rational number, said without the algorithm that finds
it. The values of the magnitudes grow with them (`value_strictMono`), so the rationals that round to
one magnitude are those between the middles to its two neighbours: its cell. The middles themselves
belong to the even magnitude of the two.

Infinity takes part as if its value were `2 ^ 1024`. Its cell then starts at the middle between the
largest finite value and `2 ^ 1024`, and has no end.

## Main definitions

* `Magnitude.value`: the value of a magnitude as a rational number.
* `Magnitude.IsNearest`: no magnitude is nearer to a rational, and a tie goes to the even one.
* `Magnitude.InCell`: the rational lies between the middles to the two neighbours.

## Main results

* `IsNearest.unique`: at most one magnitude is nearest.
* `InCell.isNearest`: a magnitude is nearest to the rationals of its cell.
* `isNearest_nearest`: the algorithm finds the nearest magnitude of every ratio.
-/

namespace Calculator

/-! ### Natural numbers nearest to a ratio -/

/-- Rounding moves a ratio by at most one half, and by one half only towards an even number. -/
theorem roundHalfEven_spec (num : ℕ) {den : ℕ} (h : 0 < den) :
    |(num : ℚ) / den - roundHalfEven num den| ≤ 1 / 2 ∧
      (|(num : ℚ) / den - roundHalfEven num den| = 1 / 2 → Even (roundHalfEven num den)) := by
  have hden : (0 : ℚ) < den := by exact_mod_cast h
  have hratio : (num : ℚ) / den = (num / den : ℕ) + (num % den : ℕ) / den := by
    rw [div_eq_iff hden.ne', add_mul, div_mul_cancel₀ _ hden.ne', mul_comm]
    exact_mod_cast (Nat.div_add_mod num den).symm
  have hmod : ((num % den : ℕ) : ℚ) / den < 1 :=
    (div_lt_one hden).mpr (by exact_mod_cast Nat.mod_lt num h)
  have hhalf : ((num % den : ℕ) : ℚ) / den = 1 / 2 ↔ 2 * (num % den) = den := by
    rw [div_eq_div_iff hden.ne' two_ne_zero, mul_comm, one_mul]
    exact_mod_cast Iff.rfl
  by_cases hdown : 2 * (num % den) < den ∨ (2 * (num % den) = den ∧ num / den % 2 = 0)
  · have herror : (num : ℚ) / den - roundHalfEven num den = (num % den : ℕ) / den := by
      rw [hratio, roundHalfEven, if_pos hdown, add_sub_cancel_left]
    have hle : ((num % den : ℕ) : ℚ) / den ≤ 1 / 2 := by
      rw [div_le_div_iff₀ hden two_pos, mul_comm, one_mul]
      exact_mod_cast (by omega : 2 * (num % den) ≤ den)
    rw [herror, abs_of_nonneg (by positivity), hhalf, roundHalfEven, if_pos hdown, Nat.even_iff]
    exact ⟨hle, fun _ => by omega⟩
  · have herror : (num : ℚ) / den - roundHalfEven num den = (num % den : ℕ) / den - 1 := by
      rw [hratio, roundHalfEven, if_neg hdown]
      push_cast
      ring
    have hge : 1 / 2 ≤ ((num % den : ℕ) : ℚ) / den := by
      rw [div_le_div_iff₀ two_pos hden, one_mul, mul_comm]
      exact_mod_cast (by omega : den ≤ 2 * (num % den))
    rw [herror, abs_of_nonpos (by linarith), roundHalfEven, if_neg hdown, Nat.even_iff]
    refine ⟨by linarith, fun htie => ?_⟩
    have := hhalf.mp (by linarith)
    omega

/-- A natural number near to a rational has the bounds of the rational that are natural numbers. -/
theorem bounds_of_abs_sub_le_half {x : ℚ} {r : ℕ} (h : |x - r| ≤ 1 / 2) (n : ℕ) :
    (x < n → r ≤ n) ∧ (n ≤ x → n ≤ r) := by
  obtain ⟨hlow, hhigh⟩ := abs_le.mp h
  constructor
  · intro hx
    have : (r : ℚ) < (n + 1 : ℕ) := by
      push_cast
      linarith
    exact Nat.lt_succ_iff.mp (by exact_mod_cast this)
  · intro hx
    have : (n : ℚ) < (r + 1 : ℕ) := by
      push_cast
      linarith
    exact Nat.lt_succ_iff.mp (by exact_mod_cast this)

namespace Magnitude

/-! ### The values of the magnitudes -/

/-- The value of a magnitude. That of infinity stands for `2 ^ 1024`. -/
def value (m : ℕ) : ℚ :=
  units m / unitsPerOne

theorem unitsPerOne_eq : unitsPerOne = 2 ^ 1074 := by
  unfold unitsPerOne
  -- The power is too large to be evaluated on the way.
  generalize 1074 = n
  exact Nat.pow_eq

theorem unitsPerOne_pos : (0 : ℚ) < unitsPerOne := by
  rw [unitsPerOne_eq, Nat.cast_pow]
  positivity

theorem units_of_lt {fraction : ℕ} (h : fraction < 2 ^ 52) : units fraction = fraction := by
  simp only [units, Nat.pow_eq, Nat.div_eq_of_lt h, Nat.mod_eq_of_lt h, if_true]

theorem units_normal {exponent fraction : ℕ} (h : fraction < 2 ^ 52) :
    units ((exponent + 1) * 2 ^ 52 + fraction) = (2 ^ 52 + fraction) * 2 ^ exponent := by
  have hdiv : ((exponent + 1) * 2 ^ 52 + fraction) / 2 ^ 52 = exponent + 1 := by omega
  have hmod : ((exponent + 1) * 2 ^ 52 + fraction) % 2 ^ 52 = fraction := by omega
  simp only [units, Nat.pow_eq, hdiv, hmod, Nat.add_one_ne_zero, if_false, Nat.add_sub_cancel]

/-- A quotient in the last place is a whole fraction with its leading bit, or it has no leading bit
in the smallest exponent. A carry out of the fraction is still the value that it should be. -/
theorem units_place {place r : ℕ} (hr : r ≤ 2 ^ 53) (hplace : place = 0 ∨ 2 ^ 52 ≤ r) :
    units (place * 2 ^ 52 + r) = r * 2 ^ place := by
  by_cases hsmall : r < 2 ^ 52
  · obtain rfl : place = 0 := by omega
    rw [Nat.zero_mul, Nat.zero_add, pow_zero, mul_one, units_of_lt hsmall]
  · by_cases hcarry : r = 2 ^ 53
    · have hm : place * 2 ^ 52 + r = (place + 1 + 1) * 2 ^ 52 + 0 := by omega
      rw [hm, units_normal (by omega), hcarry]
      ring
    · have hm : place * 2 ^ 52 + r = (place + 1) * 2 ^ 52 + (r - 2 ^ 52) := by omega
      rw [hm, units_normal (by omega), Nat.add_sub_cancel' (by omega)]

/-- The unit of the last place of the magnitudes whose exponent is `place` above the smallest. -/
def ulp (place : ℕ) : ℚ :=
  2 ^ place / unitsPerOne

theorem ulp_pos (place : ℕ) : 0 < ulp place := by
  have hone := unitsPerOne_pos
  unfold ulp
  positivity

theorem value_place {place r : ℕ} (hr : r ≤ 2 ^ 53) (hplace : place = 0 ∨ 2 ^ 52 ≤ r) :
    value (place * 2 ^ 52 + r) = r * ulp place := by
  rw [value, units_place hr hplace, ulp]
  push_cast
  ring

/-- Every magnitude is a quotient in some last place. -/
theorem exists_place (m : ℕ) :
    ∃ place r, m = place * 2 ^ 52 + r ∧ r < 2 ^ 53 ∧ (place = 0 ∨ 2 ^ 52 ≤ r) := by
  by_cases h : m < 2 ^ 53
  · exact ⟨0, m, by omega, h, .inl rfl⟩
  · exact ⟨m / 2 ^ 52 - 1, m % 2 ^ 52 + 2 ^ 52, by omega, by omega, by omega⟩

theorem units_lt_units_succ (m : ℕ) : units m < units (m + 1) := by
  obtain ⟨place, r, rfl, hr, hplace⟩ := exists_place m
  rw [Nat.add_assoc, units_place hr.le hplace, units_place (by omega) (by omega)]
  exact Nat.mul_lt_mul_of_pos_right r.lt_succ_self (Nat.two_pow_pos place)

theorem value_strictMono : StrictMono value := by
  refine strictMono_nat_of_lt_succ fun m => ?_
  exact (div_lt_div_iff_of_pos_right unitsPerOne_pos).mpr (by exact_mod_cast units_lt_units_succ m)

@[simp] theorem value_zero : value 0 = 0 := by
  rw [value, units_of_lt (by decide), Nat.cast_zero, zero_div]

theorem value_nonneg (m : ℕ) : 0 ≤ value m := by
  unfold value
  positivity

/-! ### Nearest magnitudes -/

section Middle

variable {a b q : ℚ}

/-- What lies above the middle of two values is nearer to the larger one. -/
theorem abs_sub_le_abs_sub_iff_above (h : a < b) : |q - b| ≤ |q - a| ↔ a + b ≤ 2 * q := by
  rw [← sq_le_sq]
  constructor <;> intro <;> nlinarith

/-- What lies below the middle of two values is nearer to the smaller one. -/
theorem abs_sub_le_abs_sub_iff_below (h : a < b) : |q - a| ≤ |q - b| ↔ 2 * q ≤ a + b := by
  rw [← sq_le_sq]
  constructor <;> intro <;> nlinarith

theorem abs_sub_eq_abs_sub_iff (h : a < b) : |q - a| = |q - b| ↔ a + b = 2 * q := by
  rw [le_antisymm_iff, le_antisymm_iff, abs_sub_le_abs_sub_iff_above h,
    abs_sub_le_abs_sub_iff_below h, and_comm]

end Middle

/-- No magnitude up to infinity is nearer to the rational, and if another one is as near then this
one is even. -/
structure IsNearest (q : ℚ) (m : ℕ) : Prop where
  le_infinite : m ≤ infinite
  closest : ∀ n ≤ infinite, |q - value m| ≤ |q - value n|
  even_of_tie : ∀ n ≤ infinite, n ≠ m → |q - value m| = |q - value n| → Even m

/-- At most one magnitude is nearest. -/
theorem IsNearest.unique {q : ℚ} {m n : ℕ} (hm : IsNearest q m) (hn : IsNearest q n) : m = n := by
  wlog hlt : m < n generalizing m n
  · by_contra hne
    exact hne (this hn hm (by omega)).symm
  -- Both are even, so there is a magnitude between them, and it is nearer.
  exfalso
  have heq : |q - value m| = |q - value n| :=
    le_antisymm (hm.closest n hn.le_infinite) (hn.closest m hm.le_infinite)
  have hbetween : m + 1 < n := by
    have hevenm := hm.even_of_tie n hn.le_infinite (by omega) heq
    have hevenn := hn.even_of_tie m hm.le_infinite (by omega) heq.symm
    rw [Nat.even_iff] at hevenm hevenn
    omega
  have hmiddle := (abs_sub_eq_abs_sub_iff (value_strictMono hlt)).mp heq
  have hcloser := hm.closest (m + 1) (hbetween.le.trans hn.le_infinite)
  rw [abs_sub_le_abs_sub_iff_below (value_strictMono m.lt_succ_self)] at hcloser
  have hright := value_strictMono hbetween
  linarith

/-- Rounding keeps the order. -/
theorem IsNearest.mono {q r : ℚ} {m n : ℕ} (hm : IsNearest q m) (hn : IsNearest r n) (h : q ≤ r) :
    m ≤ n := by
  by_contra hlt
  rw [not_le] at hlt
  -- Both rationals would lie on the middle between the two magnitudes.
  have hq := hm.closest n hn.le_infinite
  have hr := hn.closest m hm.le_infinite
  rw [abs_sub_le_abs_sub_iff_above (value_strictMono hlt)] at hq
  rw [abs_sub_le_abs_sub_iff_below (value_strictMono hlt)] at hr
  obtain rfl : q = r := by linarith
  exact hlt.ne' (hm.unique hn)

/-- The rational lies between the middles to the two neighbours of the magnitude, or on one of them
if the magnitude is even. Zero has no neighbour below. -/
structure InCell (m : ℕ) (q : ℚ) : Prop where
  above : ∀ k, m = k + 1 → value k + value m ≤ 2 * q
  even_above : ∀ k, m = k + 1 → value k + value m = 2 * q → Even m
  below : 2 * q ≤ value m + value (m + 1)
  even_below : 2 * q = value m + value (m + 1) → Even m

/-- A magnitude is nearest to the rationals of its cell, and infinity to those of all cells behind
the finite ones. -/
theorem InCell.isNearest {m : ℕ} {q : ℚ} (h : InCell m q) : IsNearest q (min infinite m) := by
  have hmono := value_strictMono.monotone
  have hle : min infinite m ≤ m := min_le_right infinite m
  have hsmaller : ∀ n < min infinite m, value n + value (min infinite m) ≤ 2 * q ∧
      (value n + value (min infinite m) = 2 * q → Even (min infinite m)) := by
    intro n hn
    obtain ⟨k, hk⟩ : ∃ k, m = k + 1 := ⟨m - 1, by omega⟩
    have habove := h.above k hk
    have hn' : value n ≤ value k := hmono (by omega)
    have hm' : value (min infinite m) ≤ value m := hmono hle
    refine ⟨by linarith, fun htie => ?_⟩
    have heq : min infinite m = m := value_strictMono.injective (by linarith)
    rw [heq]
    exact h.even_above k hk (by linarith)
  have hlarger : ∀ n ≤ infinite, min infinite m < n →
      2 * q ≤ value (min infinite m) + value n ∧
      (2 * q = value (min infinite m) + value n → Even (min infinite m)) := by
    intro n hinfinite hn
    have heq : min infinite m = m := by omega
    rw [heq] at hn ⊢
    have hbelow := h.below
    have hn' : value (m + 1) ≤ value n := hmono hn
    exact ⟨by linarith, fun htie => h.even_below (by linarith)⟩
  constructor
  case le_infinite => exact min_le_left infinite m
  case closest =>
    intro n hn
    rcases lt_trichotomy n (min infinite m) with hlt | heq | hgt
    · rw [abs_sub_le_abs_sub_iff_above (value_strictMono hlt)]
      exact (hsmaller n hlt).1
    · rw [heq]
    · rw [abs_sub_le_abs_sub_iff_below (value_strictMono hgt)]
      exact (hlarger n hn hgt).1
  case even_of_tie =>
    intro n hn hne htie
    rcases lt_or_gt_of_ne hne with hlt | hgt
    · rw [eq_comm, abs_sub_eq_abs_sub_iff (value_strictMono hlt)] at htie
      exact (hsmaller n hlt).2 htie
    · rw [abs_sub_eq_abs_sub_iff (value_strictMono hgt)] at htie
      exact (hlarger n hn hgt).2 htie.symm

section Cells

variable {m : ℕ} {a b q : ℚ}

/-- The rationals that a finite magnitude is nearest to are those of its cell. -/
theorem IsNearest.inCell (h : IsNearest q m) (hfinite : m < infinite) : InCell m q := by
  have hsucc : value m < value (m + 1) := value_strictMono m.lt_succ_self
  constructor
  case above =>
    rintro k rfl
    have hpred : value k < value (k + 1) := value_strictMono k.lt_succ_self
    exact (abs_sub_le_abs_sub_iff_above hpred).mp (h.closest k (by omega))
  case even_above =>
    rintro k rfl htie
    have hpred : value k < value (k + 1) := value_strictMono k.lt_succ_self
    exact h.even_of_tie k (by omega) (by omega) ((abs_sub_eq_abs_sub_iff hpred).mpr htie).symm
  case below =>
    exact (abs_sub_le_abs_sub_iff_below hsucc).mp (h.closest (m + 1) hfinite)
  case even_below =>
    intro htie
    exact h.even_of_tie (m + 1) hfinite (by omega) ((abs_sub_eq_abs_sub_iff hsucc).mpr htie.symm)

/-- A cell has no gaps. -/
theorem InCell.convex (ha : InCell m a) (hb : InCell m b) (haq : a ≤ q) (hqb : q ≤ b) :
    InCell m q := by
  constructor
  case above =>
    intro k hk
    have := ha.above k hk
    linarith
  case even_above =>
    intro k hk htie
    have := ha.above k hk
    exact ha.even_above k hk (by linarith)
  case below =>
    have := hb.below
    linarith
  case even_below =>
    intro htie
    have := hb.below
    exact hb.even_below (by linarith)

/-- What is in the cell of another magnitude than zero is positive. -/
theorem InCell.pos (h : InCell m q) (hm : 0 < m) : 0 < q := by
  have habove := h.above (m - 1) (by omega)
  have hpos := value_strictMono hm
  rw [value_zero] at hpos
  linarith [value_nonneg (m - 1)]

/-- Every value is in the cell of its magnitude. -/
theorem inCell_value (m : ℕ) : InCell m (value m) := by
  have hsucc := value_strictMono m.lt_succ_self
  have hpred : ∀ k, m = k + 1 → value k < value m := fun k hk => value_strictMono (by omega)
  refine ⟨fun k hk => ?_, fun k hk htie => ?_, by linarith, fun htie => by linarith⟩
  · linarith [hpred k hk]
  · linarith [hpred k hk]

end Cells

theorem inCell_zero : InCell 0 0 :=
  value_zero ▸ inCell_value 0

/-! ### The algorithm -/

/-- The neighbour below is one last place away, except in front of the smallest magnitude that has
its leading bit in this place. -/
theorem value_pred {place r k : ℕ} (hr : r ≤ 2 ^ 53) (hplace : place = 0 ∨ 2 ^ 52 < r)
    (hk : place * 2 ^ 52 + r = k + 1) : value k = (r - 1) * ulp place := by
  have hk' : k = place * 2 ^ 52 + (r - 1) := by omega
  rw [hk', value_place (by omega) (by omega), Nat.cast_sub (by omega), Nat.cast_one]

/-- The neighbour above is one last place away, or two after a carry. -/
theorem le_value_succ {place r : ℕ} (hr : r ≤ 2 ^ 53) (hplace : place = 0 ∨ 2 ^ 52 ≤ r) :
    (r + 1) * ulp place ≤ value (place * 2 ^ 52 + r + 1) := by
  by_cases hcarry : r = 2 ^ 53
  · have hm : place * 2 ^ 52 + r + 1 = (place + 1) * 2 ^ 52 + (2 ^ 52 + 1) := by omega
    have hnext : ulp (place + 1) = 2 * ulp place := by
      unfold ulp
      ring
    have hulp := ulp_pos place
    rw [hm, value_place (by omega) (by omega), hnext, hcarry]
    push_cast
    nlinarith
  · rw [Nat.add_assoc, value_place (by omega) (by omega)]
    push_cast
    exact le_rfl

/-- A rational that rounds to a whole number of last places is in the cell of that number. Where the
number is the smallest with its leading bit, the last place below is half as large, so the rational
must not lie below it. -/
theorem inCell_of_place {place r : ℕ} {q : ℚ} (hr : r ≤ 2 ^ 53) (hplace : place = 0 ∨ 2 ^ 52 ≤ r)
    (hleading : place = 0 ∨ 2 ^ 52 * ulp place ≤ q)
    (hnear : |q / ulp place - r| ≤ 1 / 2) (heven : |q / ulp place - r| = 1 / 2 → Even r) :
    InCell (place * 2 ^ 52 + r) q := by
  have hulp := ulp_pos place
  have hvalue := value_place hr hplace
  have habove := le_value_succ hr hplace
  have hparity : Even r → Even (place * 2 ^ 52 + r) := fun h => by
    rw [Nat.even_iff] at h ⊢
    omega
  -- The distance, counted in last places.
  have hq : q - r * ulp place = (q / ulp place - r) * ulp place := by
    rw [sub_mul, div_mul_cancel₀ q hulp.ne']
  obtain ⟨hlow, hhigh⟩ := abs_le.mp hnear
  have hlower : -(1 / 2) * ulp place ≤ q - r * ulp place :=
    hq ▸ mul_le_mul_of_nonneg_right hlow hulp.le
  have hupper : q - r * ulp place ≤ 1 / 2 * ulp place :=
    hq ▸ mul_le_mul_of_nonneg_right hhigh hulp.le
  have htie : ∀ x : ℚ, |x| = 1 / 2 → q - r * ulp place = x * ulp place → Even r :=
    fun x hx h => heven (mul_right_cancel₀ hulp.ne' (hq.symm.trans h) ▸ hx)
  have hbelow : ∀ k, place * 2 ^ 52 + r = k + 1 →
      value k = (r - 1) * ulp place ∨ value k < r * ulp place ∧ r * ulp place ≤ q := by
    intro k hk
    by_cases hstart : place ≠ 0 ∧ r = 2 ^ 52
    · refine .inr ⟨hvalue ▸ value_strictMono (by omega), ?_⟩
      rw [hstart.2]
      exact_mod_cast hleading.resolve_left hstart.1
    · exact .inl (value_pred hr (by omega) hk)
  constructor
  case above =>
    intro k hk
    rw [hvalue]
    rcases hbelow k hk with hvalue' | ⟨hlt, hle⟩
    · rw [hvalue']
      linarith
    · linarith
  case even_above =>
    intro k hk heq
    rw [hvalue] at heq
    rcases hbelow k hk with hvalue' | ⟨hlt, hle⟩
    · rw [hvalue'] at heq
      exact hparity (htie (-(1 / 2)) (by norm_num) (by linarith))
    · linarith
  case below =>
    rw [hvalue]
    linarith
  case even_below =>
    intro heq
    rw [hvalue] at heq
    exact hparity (htie (1 / 2) (by norm_num) (by linarith))

/-- The last place is chosen such that the quotient has 53 bits, or fewer in the smallest place. -/
theorem place_bounds (num : ℕ) {den : ℕ} (h : 0 < den) :
    num < 2 ^ 53 * (den * 2 ^ (Nat.log2 (num / den) - 52)) ∧
      (Nat.log2 (num / den) - 52 = 0 ∨
        2 ^ 52 * (den * 2 ^ (Nat.log2 (num / den) - 52)) ≤ num) := by
  set place := Nat.log2 (num / den) - 52
  have hassoc : ∀ k, 2 ^ k * (den * 2 ^ place) = 2 ^ (place + k) * den := fun k => by
    rw [pow_add]
    ring
  constructor
  · rw [hassoc, ← Nat.div_lt_iff_lt_mul h]
    calc num / den < 2 ^ (Nat.log2 (num / den) + 1) := Nat.lt_log2_self
      _ ≤ 2 ^ (place + 53) := Nat.pow_le_pow_right two_pos (by omega)
  · by_cases hplace : place = 0
    · exact .inl hplace
    · right
      have hlog : place + 52 = Nat.log2 (num / den) := by omega
      have hne : num / den ≠ 0 := fun hzero => by
        rw [hzero, Nat.log2_zero] at hlog
        omega
      rw [hassoc, ← Nat.le_div_iff_mul_le h, hlog]
      exact Nat.log2_self_le hne

/-- The algorithm finds the nearest magnitude of every ratio. -/
theorem isNearest_nearest (num : ℕ) {den : ℕ} (h : 0 < den) :
    IsNearest (num / den) (nearest num den) := by
  have hone := unitsPerOne_pos
  have hden : (0 : ℚ) < den := by exact_mod_cast h
  obtain ⟨hupper, hlower⟩ := place_bounds (num * unitsPerOne) h
  set place := Nat.log2 (num * unitsPerOne / den) - 52
  have hstep : 0 < den * 2 ^ place := Nat.mul_pos h (Nat.two_pow_pos place)
  have hstep' : (0 : ℚ) < (den * 2 ^ place : ℕ) := by exact_mod_cast hstep
  obtain ⟨hnear, heven⟩ := roundHalfEven_spec (num * unitsPerOne) hstep
  set r := roundHalfEven (num * unitsPerOne) (den * 2 ^ place)
  have hq : ((num * unitsPerOne : ℕ) : ℚ) / (den * 2 ^ place : ℕ) = num / den / ulp place := by
    unfold ulp
    push_cast
    field_simp
  have hupper' : (num : ℚ) / den / ulp place < 2 ^ 53 := by
    rw [← hq, div_lt_iff₀ hstep']
    exact_mod_cast hupper
  have hlower' : place = 0 ∨ 2 ^ 52 ≤ (num : ℚ) / den / ulp place := by
    refine hlower.imp_right fun hle => ?_
    rw [← hq, le_div_iff₀ hstep']
    exact_mod_cast hle
  rw [hq] at hnear heven
  have hresult : nearest num den = min infinite (place * 2 ^ 52 + r) := by
    simp only [nearest, Nat.pow_eq]
    rfl
  have hr : r ≤ 2 ^ 53 := (bounds_of_abs_sub_le_half hnear (2 ^ 53)).1 (by exact_mod_cast hupper')
  have hplace : place = 0 ∨ 2 ^ 52 ≤ r := hlower'.imp_right fun hle =>
    (bounds_of_abs_sub_le_half hnear (2 ^ 52)).2 (by exact_mod_cast hle)
  have hleading : place = 0 ∨ 2 ^ 52 * ulp place ≤ (num : ℚ) / den :=
    hlower'.imp_right fun hle => (le_div_iff₀ (ulp_pos place)).mp hle
  rw [hresult]
  exact (inCell_of_place hr hplace hleading hnear heven).isNearest

end Magnitude

end Calculator
