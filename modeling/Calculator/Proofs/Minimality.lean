import Calculator.Proofs.Grids
import Calculator.Proofs.ReadBack

/-!
# Displayed numbers are the shortest

The text of a finite double other than zero has as few digits as a decimal that rounds to it can
have, and no other decimal with as few digits that rounds to it is nearer to its exact value.

Digits are counted on the text: those in front of an exponent, without the zeros at either end that
only hold places. Whatever the layout, these are the digits of the selected decimal, which ends in
no zero and starts with none. What competes with it are all products of an integer and a power of
ten.

## Main definitions

* `significand`: the digits of a text that are counted.
* `HasDigits`: a rational is a decimal with at most so many digits.
* `RoundsTo`: the double that a rational rounds to.

## Main results

* `significand_positional`, `significand_scientific`: both layouts show the digits of the decimal.
* `significand_number`: the digits that are counted are those of the selected decimal.
* `number_shortest`: no decimal is shorter, and of the shortest none is nearer.
-/

namespace Calculator

open Magnitude

/-- The digits of a decimal text that count: those in front of an exponent, without the zeros at
either end. -/
def significand (text : List Char) : List Char :=
  Decimal.trimZeros (((text.takeWhile (· != 'e')).filter Char.isDigit).dropWhile (· == '0'))

/-- A decimal with at most `n` digits: an integer of so many digits, times a power of ten. -/
def HasDigits (n : ℕ) (q : ℚ) : Prop :=
  ∃ k e : ℤ, |k| < 10 ^ n ∧ q = k * 10 ^ e

/-- A rational with a minus sign or without. -/
def withSign (negative : Bool) (q : ℚ) : ℚ :=
  if negative then -q else q

/-- The exact value of a finite double. -/
def exactValue (x : Float) : ℚ :=
  withSign (signBit x) (value (ofFloat x))

/-- The double is the one that a rational rounds to: its magnitude is nearest, ties going to the
even one, and it has a minus sign if the rational is negative. -/
def RoundsTo (q : ℚ) (x : Float) : Prop :=
  IsNearest |q| (ofFloat x) ∧ signBit x = decide (q < 0)

namespace Decimal

open Reading

/-! ### The digits of the selected decimal -/

/-- Digits without a zero at either end. -/
structure Trimmed (digits : List Char) : Prop where
  head : digits.head? ≠ some '0'
  last : digits.getLast? ≠ some '0'

section Trimmed

variable {digits : List Char} {n multiple place : ℕ}

theorem head?_toDigits (h : 0 < n) : (Nat.toDigits 10 n).head? ≠ some '0' := by
  induction n using Nat.strong_induction_on with
  | _ n ih =>
    rw [Nat.toDigits_eq_if (by decide)]
    split_ifs with hlt
    · interval_cases n <;> decide
    · rw [List.head?_append_of_ne_nil _ Nat.toDigits_ne_nil]
      exact ih (n / 10) (by omega) (by omega)

theorem dropWhile_eq_self (h : digits.head? ≠ some '0') : digits.dropWhile (· == '0') = digits := by
  cases digits with
  | nil => rfl
  | cons c digits =>
    have hc : ¬(c == '0') = true := fun heq => h (by rw [List.head?_cons, beq_iff_eq.mp heq])
    exact List.dropWhile_cons_of_neg hc

theorem getLast?_trimZeros (digits : List Char) : (trimZeros digits).getLast? ≠ some '0' := by
  rw [trimZeros, List.getLast?_reverse]
  intro h
  have hnot := List.head?_dropWhile_not (· == '0') digits.reverse
  rw [h] at hnot
  cases hnot

/-- Zeros in front of digits that do not start with one are dropped, and nothing else. -/
theorem dropWhile_append (h : digits.head? ≠ some '0') (n : ℕ) :
    (List.replicate n '0' ++ digits).dropWhile (· == '0') = digits := by
  have hzeros : ∀ c ∈ List.replicate n '0', (c == '0') = true := fun c hc => by
    rw [List.eq_of_mem_replicate hc]
    rfl
  rw [List.dropWhile_append_of_pos hzeros, dropWhile_eq_self h]

/-- Zeros behind digits that do not end in one are trimmed, and nothing else. -/
theorem trimZeros_append (h : digits.getLast? ≠ some '0') (n : ℕ) :
    trimZeros (digits ++ List.replicate n '0') = digits := by
  have hlast : digits.reverse.head? ≠ some '0' := by rwa [List.head?_reverse]
  rw [trimZeros, List.reverse_append, List.reverse_replicate, dropWhile_append hlast,
    List.reverse_reverse]

theorem trimmed_ofSteps (h : 0 < multiple) (place : ℕ) :
    Trimmed (ofSteps multiple place).digits := by
  refine ⟨fun hhead => ?_, getLast?_trimZeros _⟩
  -- Trimming at the end does not change the first digit.
  obtain ⟨n, hn⟩ := exists_trimZeros_append (Nat.toDigits 10 multiple)
  refine head?_toDigits h ?_
  rw [hn, List.head?_append, show (trimZeros _).head? = _ from hhead]
  rfl

/-- The digits of a text are found between zeros that hold places. -/
theorem significand_of_filter {text : List Char} {i j : ℕ} (h : Trimmed digits) (hne : digits ≠ [])
    (htext : (text.takeWhile (· != 'e')).filter Char.isDigit =
      List.replicate i '0' ++ (digits ++ List.replicate j '0')) : significand text = digits := by
  have hhead : (digits ++ List.replicate j '0').head? ≠ some '0' := by
    rw [List.head?_append_of_ne_nil _ hne]
    exact h.head
  rw [significand, htext, dropWhile_append hhead, trimZeros_append h.last]

theorem ofDigitChars_lt (h : ∀ c ∈ digits, c.isDigit = true) :
    Nat.ofDigitChars 10 digits 0 < 10 ^ digits.length := by
  induction digits with
  | nil => decide
  | cons c digits ih =>
    have hc : c.toNat - '0'.toNat ≤ 9 := by
      have := h c List.mem_cons_self
      simp only [Char.isDigit, Bool.and_eq_true, decide_eq_true_eq, UInt32.le_iff_toNat_le] at this
      have hle : c.toNat ≤ 57 := this.2
      have hzero : '0'.toNat = 48 := rfl
      omega
    have ih := ih fun c hc => h c (List.mem_cons_of_mem _ hc)
    rw [Nat.ofDigitChars_cons, Nat.mul_zero, Nat.zero_add, Nat.ofDigitChars_eq_ofDigitChars_zero,
      List.length_cons, pow_succ]
    linarith [Nat.mul_le_mul_left (10 ^ digits.length) hc]

end Trimmed

/-! ### Layouts show the digits -/

section Layouts

variable {d : Decimal}

/-- The positional layout has the digits of the decimal between zeros. -/
theorem exists_filter_positional (h : d.Proper) : ∃ i j, d.positional.filter Char.isDigit =
    List.replicate i '0' ++ (d.digits ++ List.replicate j '0') := by
  obtain ⟨whole, fraction, i, j, heq, hspread⟩ := exists_spread h
  refine ⟨i, j, ?_⟩
  rw [heq, ← hspread.append_eq, List.filter_append, List.filter_cons_of_neg (by decide),
    List.filter_eq_self.mpr (hspread.isDigit_whole h),
    List.filter_eq_self.mpr (hspread.isDigit_fraction h)]

theorem significand_positional (h : d.Proper) (htrimmed : Trimmed d.digits) :
    significand d.positional = d.digits := by
  obtain ⟨i, j, hfilter⟩ := exists_filter_positional h
  refine significand_of_filter htrimmed h.ne_nil (i := i) (j := j) ?_
  rw [List.takeWhile_eq_self_iff.mpr (ne_exponent (isNumeralChar_positional h)), hfilter]

theorem significand_scientific (h : d.Proper) (htrimmed : Trimmed d.digits) :
    significand d.scientific = d.digits := by
  obtain ⟨mantissa, n, heq, hchars, -, -, hfilter⟩ := exists_scientific_eq h
  refine significand_of_filter htrimmed h.ne_nil (i := 0) (j := 0) ?_
  rw [heq, List.takeWhile_append_of_pos (ne_exponent hchars),
    List.takeWhile_cons_of_neg (by decide), List.append_nil, hfilter]
  simp

end Layouts

end Decimal

/-! ### Numbers -/

section Numbers

variable {m n : ℕ} {q a b : ℚ} {x : Float}

theorem significand_minus (text : List Char) : significand ('-' :: text) = significand text :=
  rfl

theorem abs_withSign_sub (negative : Bool) (a b : ℚ) :
    |withSign negative a - withSign negative b| = |a - b| := by
  cases negative with
  | false => rfl
  | true =>
    have hneg : withSign true a - withSign true b = -(a - b) := by
      simp only [withSign, if_true]
      ring
    rw [hneg, abs_neg]

/-- A rational that rounds to a double has the sign of the double. -/
theorem RoundsTo.eq_withSign (h : RoundsTo q x) : q = withSign (signBit x) |q| := by
  rw [h.2, withSign]
  by_cases hq : q < 0
  · simp [hq, abs_of_neg hq]
  · simp [hq, abs_of_nonneg (not_lt.mp hq)]

theorem roundsTo_withSign (hq : 0 < q) (h : IsNearest q (ofFloat x)) :
    RoundsTo (withSign (signBit x) q) x := by
  unfold RoundsTo withSign
  cases signBit x with
  | false => simpa [abs_of_pos hq, hq.le] using h
  | true => simpa [abs_of_pos hq, hq] using h

theorem HasDigits.neg (h : HasDigits n q) : HasDigits n (-q) := by
  obtain ⟨k, e, hk, rfl⟩ := h
  refine ⟨-k, e, by rwa [abs_neg], ?_⟩
  push_cast
  ring

theorem HasDigits.withSign (h : HasDigits n q) (negative : Bool) :
    HasDigits n (withSign negative q) := by
  cases negative with
  | false => exact h
  | true => exact h.neg

/-- The size of a decimal has as many digits. -/
theorem HasDigits.exists_abs (h : HasDigits n q) :
    ∃ k : ℕ, ∃ e : ℤ, k < 10 ^ n ∧ |q| = k * 10 ^ e := by
  obtain ⟨k, e, hk, rfl⟩ := h
  refine ⟨k.natAbs, e, ?_, ?_⟩
  · rw [← Int.natCast_natAbs] at hk
    exact_mod_cast hk
  · have hpow : (0 : ℚ) < 10 ^ e := zpow_pos (by norm_num) e
    rw [abs_mul, abs_of_pos hpow, Nat.cast_natAbs, Int.cast_abs]

/-- A decimal that rounds to a double lies in its cell, but for the sign. -/
theorem RoundsTo.exists_inCell (h : RoundsTo q x) (hfinite : ofFloat x < infinite)
    (hdigits : HasDigits n q) :
    ∃ k : ℕ, ∃ e : ℤ, k < 10 ^ n ∧ InCell (ofFloat x) (k * 10 ^ e) ∧
      |q - exactValue x| = |value (ofFloat x) - k * 10 ^ e| := by
  obtain ⟨k, e, hk, habs⟩ := hdigits.exists_abs
  refine ⟨k, e, hk, habs ▸ h.1.inCell hfinite, ?_⟩
  calc |q - exactValue x|
      = |withSign (signBit x) |q| - withSign (signBit x) (value (ofFloat x))| := by
        rw [← h.eq_withSign, exactValue]
    _ = |value (ofFloat x) - k * 10 ^ e| := by rw [abs_withSign_sub, habs, abs_sub_comm]

theorem hasDigits_ratio {d : Decimal} (h : d.Proper) : HasDigits d.digits.length d.ratio := by
  refine ⟨Nat.ofDigitChars 10 d.digits 0, d.point - d.digits.length, ?_, ?_⟩
  · rw [Nat.abs_cast]
    exact_mod_cast Decimal.ofDigitChars_lt h.isDigit
  · rw [Decimal.ratio, Int.cast_natCast]

/-- The digits of the selected decimal have no zero at either end. -/
theorem trimmed_shortest (hm : 0 < m) : Decimal.Trimmed (Decimal.shortest m).digits := by
  obtain ⟨leading, place, multiple, heq, hselects, -⟩ := Decimal.exists_selects_shortest hm
  rw [heq]
  refine Decimal.trimmed_ofSteps (Nat.pos_of_ne_zero fun hzero => ?_) place
  have hpos := hselects.inCell.pos hm
  rw [hzero, Nat.cast_zero, zero_mul] at hpos
  exact lt_irrefl 0 hpos

/-- The text of a double other than zero shows the digits of the selected decimal. -/
theorem significand_number (h : ofFloat x < infinite) (hpos : 0 < ofFloat x) :
    significand (Display.number x).toList = (Decimal.shortest (ofFloat x)).digits := by
  have hproper := Decimal.proper_shortest hpos
  have hmagnitude :
      significand (Display.magnitude (ofFloat x)) = (Decimal.shortest (ofFloat x)).digits := by
    -- Which layout it is does not matter.
    rw [Reading.magnitude_eq hpos h]
    split_ifs
    · exact Decimal.significand_positional hproper (trimmed_shortest hpos)
    · exact Decimal.significand_scientific hproper (trimmed_shortest hpos)
  rw [Reading.toList_number h.le]
  split_ifs
  · rw [significand_minus, hmagnitude]
  · exact hmagnitude

end Numbers

open Reading

/-- Displayed numbers are the shortest. The text of a finite double other than zero denotes a
decimal that rounds to it and has the digits that the text shows; no decimal with fewer digits
rounds to the double, and none with as many digits that does is nearer to its exact value. -/
theorem Display.number_shortest {x : Float} (hfinite : x.isFinite = true) (hne : ofFloat x ≠ 0) :
    ∃ q, decimal? (number x).toList = some (signBit x, q) ∧
      RoundsTo (withSign (signBit x) q) x ∧
      HasDigits (significand (number x).toList).length (withSign (signBit x) q) ∧
      (∀ n < (significand (number x).toList).length, ∀ r, HasDigits n r → ¬RoundsTo r x) ∧
      ∀ r, HasDigits (significand (number x).toList).length r → RoundsTo r x →
        |withSign (signBit x) q - exactValue x| ≤ |r - exactValue x| := by
  rw [isFinite_iff] at hfinite
  have hpos := Nat.pos_of_ne_zero hne
  rw [significand_number hfinite hpos]
  have hratio := (Decimal.inCell_ratio_shortest hpos).pos hpos
  refine ⟨_, decimal?_number hfinite.le (unsigned?_magnitude hpos hfinite),
    roundsTo_withSign hratio (isNearest_ratio_shortest hpos hfinite),
    (hasDigits_ratio (Decimal.proper_shortest hpos)).withSign _, fun n hn r hr hrounds => ?_,
    fun r hr hrounds => ?_⟩
  · obtain ⟨k, e, hk, hcell, -⟩ := hrounds.exists_inCell hfinite hr
    exact absurd (Decimal.length_shortest_le hpos hcell hk) (not_le.mpr hn)
  · obtain ⟨k, e, hk, hcell, hdistance⟩ := hrounds.exists_inCell hfinite hr
    rw [hdistance, exactValue, abs_withSign_sub, abs_sub_comm]
    exact Decimal.shortest_closest hpos hcell hk

/-- The smallest double is displayed with one digit, though its exact value has many. All decimals
from `3e-324` to `7e-324` round to it, and of them `5e-324` is nearest. -/
theorem Display.number_shortest_smallest :
    (Float.ofBits 1).isFinite = true ∧ ofFloat (Float.ofBits 1) ≠ 0 ∧
      number (Float.ofBits 1) = "5e-324" ∧
      ∃ q, decimal? "5e-324".toList = some (false, q) ∧ RoundsTo q (Float.ofBits 1) ∧
        ∀ r, HasDigits 1 r → RoundsTo r (Float.ofBits 1) →
          |q - exactValue (Float.ofBits 1)| ≤ |r - exactValue (Float.ofBits 1)| := by
  have hfinite : (Float.ofBits 1).isFinite = true := by decide
  have hne : ofFloat (Float.ofBits 1) ≠ 0 := by decide
  have htext : number (Float.ofBits 1) = "5e-324" := by decide +kernel
  have hsign : signBit (Float.ofBits 1) = false := by decide
  have hlength : (significand "5e-324".toList).length = 1 := by decide
  obtain ⟨q, hq, hrounds, -, -, hclosest⟩ := number_shortest hfinite hne
  rw [htext, hlength] at hclosest
  rw [htext, hsign] at hq
  rw [hsign] at hrounds hclosest
  exact ⟨hfinite, hne, htext, q, hq, hrounds, hclosest⟩

end Calculator
