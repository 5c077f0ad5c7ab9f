import Calculator.Display
import Calculator.Proofs.Doubles
import Calculator.Proofs.Grammar
import Calculator.Proofs.Shortest

/-!
# Displayed numbers read back

The text of a finite double is a decimal number: a minus sign if the sign bit is set, digits with a
point or without, and an exponent if the number is very large or very small. A reader that rounds
correctly, to the nearest double and to the even one on a tie, gets the same bits back. So no two
numbers are displayed in the same way.

The reader is independent of how the text came about. It takes a text apart into its sign and the
rational number it denotes; what it means to round that number correctly is said by `IsNearest`.

## Main definitions

* `Reading.decimal?`: the sign and the rational number that a text denotes.
* `Reading.Spread`: the digits of a decimal on both sides of a point.
* `Reading.ReadsAs`: a double that a correctly rounding reader may give for a text.

## Main results

* `exists_ofRun?_positional`, `unsigned?_scientific`: both layouts denote the decimal they
  lay out.
* `exists_ofRun?_magnitude`, `exists_unsigned?_magnitude`: what the text of a magnitude denotes
  rounds to it.
* `exists_readsAs`, `readsAs_unique`: a reader always has a double to give, and only one.
* `number_reads_back`: displayed numbers lose nothing.
-/

namespace Calculator

/-- The rational number that a numeral denotes. -/
def Numeral.ratio (n : Numeral) : ℚ :=
  n.digits / 10 ^ n.places

open Magnitude

/-- The magnitude that the algorithm finds for a numeral is the nearest one. -/
theorem Numeral.isNearest_ratio (n : Numeral) :
    IsNearest n.ratio (nearest n.digits (10 ^ n.places)) := by
  have hnearest := isNearest_nearest n.digits (Nat.pow_pos (Nat.succ_pos 9) : 0 < 10 ^ n.places)
  rwa [Nat.cast_pow, Nat.cast_ofNat] at hnearest

/-- The value of a numeral is the nearest double. -/
theorem Numeral.value_eq_toFloat {n : Numeral} {m : ℕ} (h : IsNearest n.ratio m) :
    n.value = toFloat m := by
  rw [Numeral.value, Nat.pow_eq, n.isNearest_ratio.unique h]

namespace Reading

/-! ### Reading a decimal text -/

/-- Digits, read as a natural number. -/
def natural? (text : List Char) : Option ℕ :=
  if text ≠ [] ∧ text.all Char.isDigit then some (Nat.ofDigitChars 10 text 0) else none

/-- Digits that may follow a minus sign, read as an integer. -/
def integer? : List Char → Option ℤ
  | '-' :: text => (natural? text).map fun n : ℕ => -(n : ℤ)
  | text => (natural? text).map Nat.cast

/-- Digits with a point or without, and an exponent if there is an `e`. -/
def unsigned? (text : List Char) : Option ℚ :=
  let mantissa := text.takeWhile (· != 'e')
  match text.dropWhile (· != 'e') with
  | [] => (Numeral.ofRun? mantissa).map Numeral.ratio
  | _ :: exponent => do
    let n ← Numeral.ofRun? mantissa
    let e ← integer? exponent
    return n.ratio * 10 ^ e

/-- The sign that a text starts with, true for a minus, and the number behind it. -/
def decimal? : List Char → Option (Bool × ℚ)
  | '-' :: text => (unsigned? text).map fun q => (true, q)
  | text => (unsigned? text).map fun q => (false, q)

/-- The double has the sign of the text, and no double is nearer to the number that the text
denotes. -/
def ReadsAs (text : String) (y : Float) : Prop :=
  ∃ q, decimal? text.toList = some (signBit y, q) ∧ IsNearest q (ofFloat y)

/-- At most one double is read from a text. -/
theorem readsAs_unique {text : String} {x y : Float} (hx : ReadsAs text x) (hy : ReadsAs text y) :
    x = y := by
  obtain ⟨q, hxq, hx⟩ := hx
  obtain ⟨r, hyr, hy⟩ := hy
  obtain ⟨hsign, rfl⟩ := Prod.mk.inj (Option.some.inj (hxq.symm.trans hyr))
  exact eq_iff_signBit_ofFloat.mpr ⟨hsign, hx.unique hy⟩

theorem unsigned?_nonneg {text : List Char} {q : ℚ} (h : unsigned? text = some q) : 0 ≤ q := by
  have hratio : ∀ n : Numeral, 0 ≤ n.ratio := fun n => by
    unfold Numeral.ratio
    positivity
  simp only [unsigned?] at h
  split at h
  · obtain ⟨n, -, rfl⟩ := Option.map_eq_some_iff.mp h
    exact hratio n
  · simp only [Option.bind_eq_bind, Option.bind_eq_some_iff] at h
    obtain ⟨n, -, e, -, hq⟩ := h
    rw [← Option.some.inj hq]
    exact mul_nonneg (hratio n) (by positivity)

/-- Every text that denotes a number is read as some double. -/
theorem exists_readsAs {text : String} {sign : Bool} {q : ℚ}
    (h : decimal? text.toList = some (sign, q)) : ∃ y, ReadsAs text y := by
  have hq : 0 ≤ q := by
    unfold decimal? at h
    split at h
    all_goals
      obtain ⟨r, hr, heq⟩ := Option.map_eq_some_iff.mp h
      obtain ⟨-, rfl⟩ := Prod.mk.inj heq
      exact unsigned?_nonneg hr
  -- The algorithm finds the magnitude, and a minus sign gives it the sign.
  have hnearest := isNearest_nearest q.num.toNat q.den_pos
  have hratio : (q.num.toNat : ℚ) / q.den = q := by
    have hnum : ((q.num.toNat : ℤ) : ℚ) = q.num := by
      rw [Int.toNat_of_nonneg (Rat.num_nonneg.mpr hq)]
    rw [← Int.cast_natCast, hnum, Rat.num_div_den]
  rw [hratio] at hnearest
  obtain ⟨hmagnitude, hplus⟩ := toFloat_spec hnearest.le_infinite
  obtain ⟨hmagnitude', hminus⟩ := neg_spec (hmagnitude.trans_le hnearest.le_infinite)
  cases sign
  case false => exact ⟨_, q, by rw [h, hplus], by rwa [hmagnitude]⟩
  case true =>
    exact ⟨-toFloat _, q, by rw [h, hminus, hplus]; rfl, by rwa [hmagnitude', hmagnitude]⟩

theorem unsigned?_minus (text : List Char) : unsigned? ('-' :: text) = none := by
  have hrun : ∀ run, Numeral.ofRun? ('-' :: run) = none := fun run => rfl
  simp only [unsigned?]
  split <;> simp [hrun]

theorem decimal?_of_unsigned? {text : List Char} {q : ℚ} (h : unsigned? text = some q) :
    decimal? text = some (false, q) ∧ decimal? ('-' :: text) = some (true, q) := by
  constructor
  · unfold decimal?
    split
    · rw [unsigned?_minus] at h
      cases h
    · rw [h]
      rfl
  · simp only [decimal?, h, Option.map_some]

/-! ### The layouts -/

section Layouts

variable {d : Decimal} {whole fraction : List Char}

theorem ofRun?_point (hwhole : ∀ c ∈ whole, c.isDigit = true)
    (hfraction : ∀ c ∈ fraction, c.isDigit = true) (hne : whole ≠ [] ∨ fraction ≠ []) :
    Numeral.ofRun? (whole ++ '.' :: fraction) =
      some ⟨Nat.ofDigitChars 10 (whole ++ fraction) 0, fraction.length⟩ := by
  have hparts : ¬(whole.isEmpty && fraction.isEmpty) = true := by
    rw [Bool.and_eq_true, List.isEmpty_iff, List.isEmpty_iff]
    tauto
  rw [Grammar.ofRun?_of_point hwhole, if_pos (List.all_eq_true.mpr hfraction), Numeral.ofParts?,
    if_neg hparts]

theorem ne_exponent {run : List Char} (h : ∀ c ∈ run, isNumeralChar c = true) :
    ∀ c ∈ run, (c != 'e') = true := by
  intro c hc
  rw [bne_iff_ne]
  rintro rfl
  exact absurd (h 'e' hc) (by decide)

theorem isDigit_replicate_zero (n : ℕ) : ∀ c ∈ List.replicate n '0', c.isDigit = true := by
  intro c hc
  rw [List.eq_of_mem_replicate hc]
  rfl

/-- A numeral with the digits of a decimal, and zeros behind them, denotes the decimal if its point
is in the place where the decimal has it. -/
theorem ratio_eq_ratio {n : Numeral} (zeros : ℕ)
    (hdigits : n.digits = 10 ^ zeros * Nat.ofDigitChars 10 d.digits 0)
    (hplaces : (zeros : ℤ) - n.places = d.point - d.digits.length) : n.ratio = d.ratio := by
  rw [Numeral.ratio, Decimal.ratio, ← hplaces, zpow_sub₀ (by norm_num), zpow_natCast, zpow_natCast,
    hdigits, Nat.cast_mul, Nat.cast_pow, Nat.cast_ofNat]
  ring

/-- The digits of a decimal, spread over both sides of a point. Zeros hold places in front of them
and behind them, and one stands alone on a side where no digit would stand. -/
structure Spread (d : Decimal) (whole fraction : List Char) (i j : ℕ) : Prop where
  append_eq : whole ++ fraction = List.replicate i '0' ++ (d.digits ++ List.replicate j '0')
  whole_ne_nil : whole ≠ []
  fraction_ne_nil : fraction ≠ []
  front : i = 0 ∨ whole = ['0']
  behind : j = 0 ∨ fraction = ['0']
  /-- The point is in the place where the decimal has it. -/
  places : (j : ℤ) - fraction.length = d.point - d.digits.length

/-- The positional layout spreads the digits over both sides of a point. -/
theorem exists_spread (h : d.Proper) : ∃ whole fraction i j,
    d.positional = whole ++ '.' :: fraction ∧ Spread d whole fraction i j := by
  have hlength := List.length_pos_iff.mpr h.ne_nil
  simp only [Decimal.positional]
  split_ifs with hpoint hlong
  · -- Zeros stand on both sides of the point.
    refine ⟨['0'], List.replicate d.point.natAbs '0' ++ d.digits, d.point.natAbs + 1, 0, by simp,
      ?_, by simp, by simp [h.ne_nil], .inr rfl, .inl rfl, ?_⟩
    · simp [List.replicate_succ]
    · simp only [List.length_append, List.length_replicate]
      omega
  · -- Zeros stand between the digits and the point, and one behind it.
    refine ⟨d.digits ++ List.replicate (d.point.toNat - d.digits.length) '0', ['0'], 0,
      d.point.toNat - d.digits.length + 1, by simp, ?_, by simp [h.ne_nil], by simp, .inl rfl,
      .inr rfl, ?_⟩
    · simp [List.replicate_succ']
    · simp only [List.length_singleton]
      omega
  · -- The point stands between two digits.
    refine ⟨d.digits.take d.point.toNat, d.digits.drop d.point.toNat, 0, 0, by simp, by simp, ?_,
      ?_, .inl rfl, .inl rfl, ?_⟩
    · rw [ne_eq, List.take_eq_nil_iff]
      simp only [h.ne_nil, or_false]
      omega
    · rw [ne_eq, List.drop_eq_nil_iff]
      omega
    · rw [List.length_drop]
      omega

namespace Spread

variable {i j : ℕ}

theorem isDigit (hspread : Spread d whole fraction i j) (h : d.Proper) :
    ∀ c ∈ whole ++ fraction, c.isDigit = true := by
  rw [hspread.append_eq]
  refine List.forall_mem_append.mpr ⟨isDigit_replicate_zero i, ?_⟩
  exact List.forall_mem_append.mpr ⟨h.isDigit, isDigit_replicate_zero j⟩

theorem isDigit_whole (hspread : Spread d whole fraction i j) (h : d.Proper) :
    ∀ c ∈ whole, c.isDigit = true :=
  (List.forall_mem_append.mp (hspread.isDigit h)).1

theorem isDigit_fraction (hspread : Spread d whole fraction i j) (h : d.Proper) :
    ∀ c ∈ fraction, c.isDigit = true :=
  (List.forall_mem_append.mp (hspread.isDigit h)).2

/-- Zeros behind the digits count, and those in front do not. -/
theorem ofDigitChars_eq (hspread : Spread d whole fraction i j) :
    Nat.ofDigitChars 10 (whole ++ fraction) 0 = 10 ^ j * Nat.ofDigitChars 10 d.digits 0 := by
  rw [hspread.append_eq, Nat.ofDigitChars_append, Nat.ofDigitChars_replicate_zero, Nat.mul_zero,
    Nat.ofDigitChars_append, Nat.ofDigitChars_replicate_zero]

end Spread

/-- The positional layout is a numeral that denotes the decimal. -/
theorem exists_ofRun?_positional (h : d.Proper) :
    ∃ n : Numeral, Numeral.ofRun? d.positional = some n ∧ n.ratio = d.ratio := by
  obtain ⟨whole, fraction, i, j, heq, hspread⟩ := exists_spread h
  rw [heq, ofRun?_point (hspread.isDigit_whole h) (hspread.isDigit_fraction h)
    (.inl hspread.whole_ne_nil)]
  exact ⟨_, rfl, ratio_eq_ratio j hspread.ofDigitChars_eq hspread.places⟩

theorem isNumeralChar_positional (h : d.Proper) : ∀ c ∈ d.positional, isNumeralChar c = true := by
  obtain ⟨whole, fraction, i, j, heq, hspread⟩ := exists_spread h
  intro c hc
  rw [heq, List.mem_append, List.mem_cons] at hc
  unfold isNumeralChar
  rcases hc with hc | rfl | hc
  · rw [hspread.isDigit_whole h c hc, Bool.true_or]
  · rfl
  · rw [hspread.isDigit_fraction h c hc, Bool.true_or]

theorem unsigned?_of_run {run : List Char} {n : Numeral}
    (hchars : ∀ c ∈ run, isNumeralChar c = true) (hn : Numeral.ofRun? run = some n) : unsigned? run = some n.ratio := by
  have hmantissa : ∀ c ∈ run, (c != 'e') = true := ne_exponent hchars
  rw [unsigned?, List.takeWhile_eq_self_iff.mpr hmantissa, List.dropWhile_eq_nil_iff.mpr hmantissa,
    hn]
  rfl

/-- The positional layout denotes the decimal. -/
theorem unsigned?_positional (h : d.Proper) : unsigned? d.positional = some d.ratio := by
  obtain ⟨n, hn, hratio⟩ := exists_ofRun?_positional h
  rw [unsigned?_of_run (isNumeralChar_positional h) hn, hratio]

theorem unsigned?_of_exponent {run exponent : List Char} {n : Numeral} {e : ℤ}
    (hchars : ∀ c ∈ run, isNumeralChar c = true) (hn : Numeral.ofRun? run = some n)
    (he : integer? exponent = some e) :
    unsigned? (run ++ 'e' :: exponent) = some (n.ratio * 10 ^ e) := by
  have hmantissa : ∀ c ∈ run, (c != 'e') = true := ne_exponent hchars
  rw [unsigned?, List.takeWhile_append_of_pos hmantissa, List.dropWhile_append_of_pos hmantissa,
    List.takeWhile_cons_of_neg (by decide), List.dropWhile_cons_of_neg (by decide), List.append_nil,
    hn]
  simp only [he]
  rfl

/-- An integer reads back from its text. -/
theorem integer?_integerText (n : ℤ) : integer? (integerText n) = some n := by
  have hnatural : natural? (Nat.toDigits 10 n.natAbs) = some n.natAbs := by
    rw [natural?, if_pos, Nat.ofDigitChars_ten_toDigits]
    refine ⟨Nat.toDigits_ne_nil, List.all_eq_true.mpr fun c hc => ?_⟩
    exact Nat.isDigit_of_mem_toDigits (by decide) (by decide) hc
  unfold integerText
  split_ifs with hneg
  · simp only [integer?, hnatural, Option.map_some]
    congr 1
    omega
  · unfold integer?
    split
    case h_1 text heq =>
      -- The text of a natural number starts with a digit.
      have : '-'.isDigit = true := Nat.isDigit_of_mem_toDigits (b := 10) (by decide) (by decide)
        (heq ▸ List.mem_cons_self)
      cases this
    case h_2 =>
      simp only [hnatural, Option.map_some]
      congr 1
      omega

/-- The mantissa of the scientific layout has one digit in front of the point, and no point if there
are no more digits. -/
theorem exists_scientific_eq (h : d.Proper) :
    ∃ mantissa, ∃ n : Numeral, d.scientific = mantissa ++ 'e' :: integerText (d.point - 1) ∧
      (∀ c ∈ mantissa, isNumeralChar c = true) ∧ Numeral.ofRun? mantissa = some n ∧
      n.ratio = Decimal.ratio ⟨d.digits, 1⟩ ∧ mantissa.filter Char.isDigit = d.digits := by
  obtain ⟨c, rest, hdigits⟩ := List.exists_cons_of_ne_nil h.ne_nil
  have hchars : ∀ x ∈ c :: rest, isNumeralChar x = true := fun x hx => by
    rw [isNumeralChar, h.isDigit x (hdigits ▸ hx), Bool.true_or]
  have hc : ∀ x ∈ [c], x.isDigit = true := fun x hx => h.isDigit x (by simp_all)
  have hrest : ∀ x ∈ rest, x.isDigit = true := fun x hx => h.isDigit x (by simp [hdigits, hx])
  by_cases hone : rest = []
  · refine ⟨[c], ⟨Nat.ofDigitChars 10 [c] 0, 0⟩, ?_, ?_, ?_, ratio_eq_ratio 0 ?_ ?_, ?_⟩
    · simp [Decimal.scientific, hdigits, hone]
    · simpa [hone] using hchars
    · rw [Grammar.ofRun?_of_digits hc]
      rfl
    · rw [hdigits, hone, pow_zero, one_mul]
    · simp [hdigits, hone]
    · rw [hdigits, hone, List.filter_eq_self.mpr hc]
  · refine ⟨[c] ++ '.' :: rest, _, ?_, ?_, ofRun?_point hc hrest (.inl (by simp)),
      ratio_eq_ratio 0 ?_ ?_, ?_⟩
    · simp [Decimal.scientific, hdigits, hone]
    · simp only [List.singleton_append, List.mem_cons]
      rintro x (rfl | rfl | hx)
      · exact hchars x List.mem_cons_self
      · rfl
      · exact hchars x (List.mem_cons_of_mem _ hx)
    · rw [hdigits, pow_zero, one_mul, List.singleton_append]
    · rw [hdigits, List.length_cons]
      push_cast
      ring
    · rw [hdigits, List.filter_append, List.filter_eq_self.mpr hc,
        List.filter_cons_of_neg (by decide), List.filter_eq_self.mpr hrest, List.singleton_append]

/-- The scientific layout denotes the decimal. -/
theorem unsigned?_scientific (h : d.Proper) : unsigned? d.scientific = some d.ratio := by
  obtain ⟨mantissa, n, heq, hchars, hn, hratio, -⟩ := exists_scientific_eq h
  have hpoint : d.ratio = Decimal.ratio ⟨d.digits, 1⟩ * 10 ^ (d.point - 1) := by
    rw [Decimal.ratio, Decimal.ratio, mul_assoc, ← zpow_add₀ (by norm_num)]
    congr 2
    ring
  rw [heq, unsigned?_of_exponent hchars hn (integer?_integerText _), hratio, hpoint]

end Layouts

/-! ### Displayed numbers -/

section Numbers

variable {m : ℕ} {x y : Float}

theorem positionalBelow_lt : Display.positionalBelow < infinite := by
  decide +kernel

/-- The digits of a finite magnitude round to it. -/
theorem isNearest_ratio_shortest (hpos : 0 < m) (h : m < infinite) :
    IsNearest (Decimal.shortest m).ratio m := by
  have hnearest := (Decimal.inCell_ratio_shortest hpos).isNearest
  rwa [min_eq_right h.le] at hnearest

/-- The text of a finite magnitude other than zero is one of the layouts of its digits. -/
theorem magnitude_eq (hpos : 0 < m) (h : m < infinite) :
    Display.magnitude m =
      if Display.positionalFrom ≤ m ∧ m < Display.positionalBelow then
        (Decimal.shortest m).positional
      else (Decimal.shortest m).scientific := by
  rw [Display.magnitude, if_neg (by omega), if_neg (by omega), if_neg (by omega)]

/-- The text of a finite magnitude other than zero denotes its shortest decimal. -/
theorem unsigned?_magnitude (hpos : 0 < m) (h : m < infinite) :
    unsigned? (Display.magnitude m) = some (Decimal.shortest m).ratio := by
  have hproper := Decimal.proper_shortest hpos
  rw [magnitude_eq hpos h]
  split_ifs
  · exact unsigned?_positional hproper
  · exact unsigned?_scientific hproper

/-- The text of a magnitude that is written positionally is a numeral that rounds to it. -/
theorem exists_ofRun?_magnitude
    (h : m = 0 ∨ Display.positionalFrom ≤ m ∧ m < Display.positionalBelow) :
    (∀ c ∈ Display.magnitude m, isNumeralChar c = true) ∧
      ∃ n : Numeral, Numeral.ofRun? (Display.magnitude m) = some n ∧ IsNearest n.ratio m := by
  by_cases hzero : m = 0
  · have hnearest := inCell_zero.isNearest
    have hpos : 0 < infinite := Nat.zero_lt_of_lt positionalBelow_lt
    have htext : Display.magnitude m = "0.0".toList := by
      rw [Display.magnitude, if_neg (by omega), if_neg (by omega), if_pos hzero]
    rw [htext, hzero]
    refine ⟨List.all_eq_true.mp (by decide), ⟨0, 1⟩, by decide, ?_⟩
    rwa [Numeral.ratio, Nat.cast_zero, zero_div, ← Nat.min_zero infinite]
  · have hpositional := h.resolve_left hzero
    have hfinite := hpositional.2.trans positionalBelow_lt
    have hpos := Nat.pos_of_ne_zero hzero
    have hproper := Decimal.proper_shortest hpos
    obtain ⟨n, hn, hratio⟩ := exists_ofRun?_positional hproper
    rw [magnitude_eq hpos hfinite, if_pos hpositional]
    refine ⟨isNumeralChar_positional hproper, n, hn, ?_⟩
    exact hratio ▸ isNearest_ratio_shortest hpos hfinite

/-- The text of a finite magnitude denotes a number that rounds to it. -/
theorem exists_unsigned?_magnitude (h : m < infinite) :
    ∃ q, unsigned? (Display.magnitude m) = some q ∧ IsNearest q m := by
  by_cases hzero : m = 0
  · obtain ⟨hchars, n, hn, hnearest⟩ := exists_ofRun?_magnitude (.inl hzero)
    exact ⟨n.ratio, unsigned?_of_run hchars hn, hnearest⟩
  · have hpos := Nat.pos_of_ne_zero hzero
    exact ⟨_, unsigned?_magnitude hpos h, isNearest_ratio_shortest hpos h⟩

theorem toList_number (h : ofFloat x ≤ infinite) :
    (Display.number x).toList =
      if signBit x = true then '-' :: Display.magnitude (ofFloat x)
      else Display.magnitude (ofFloat x) := by
  simp only [Display.number, String.toList_ofList, h, and_true]
  split_ifs <;> rfl

/-- The text of a number denotes what that of its magnitude does, with the sign of the number. -/
theorem decimal?_number {q : ℚ} (h : ofFloat x ≤ infinite)
    (hq : unsigned? (Display.magnitude (ofFloat x)) = some q) :
    decimal? (Display.number x).toList = some (signBit x, q) := by
  obtain ⟨hplus, hminus⟩ := decimal?_of_unsigned? hq
  rw [toList_number h]
  by_cases hsign : signBit x = true
  · rw [if_pos hsign, hminus, hsign]
  · rw [if_neg hsign, hplus, Bool.eq_false_iff.mpr hsign]

/-- The text of a finite double reads as the double. -/
theorem readsAs_number (h : x.isFinite = true) : ReadsAs (Display.number x) x := by
  rw [isFinite_iff] at h
  obtain ⟨q, hq, hnearest⟩ := exists_unsigned?_magnitude h
  exact ⟨q, decimal?_number h.le hq, hnearest⟩

theorem toList_number_of_infinite (h : ofFloat x = infinite) :
    (Display.number x).toList =
      if signBit x = true then "-Infinity".toList else "Infinity".toList := by
  have hmagnitude : Display.magnitude infinite = "Infinity".toList := by
    rw [Display.magnitude, if_neg (lt_irrefl _), if_pos rfl]
  rw [toList_number h.le, h, hmagnitude]
  rfl

/-- Only finite doubles are shown as decimal numbers. -/
theorem ofFloat_lt_infinite_of_readsAs (h : ofFloat x ≤ infinite)
    (hread : ReadsAs (Display.number x) y) : ofFloat x < infinite := by
  refine lt_of_le_of_ne h fun heq => ?_
  obtain ⟨q, hq, -⟩ := hread
  rw [toList_number_of_infinite heq] at hq
  have hnone : decimal? "-Infinity".toList = none ∧ decimal? "Infinity".toList = none := ⟨rfl, rfl⟩
  split_ifs at hq
  · exact Option.some_ne_none _ (hq.symm.trans hnone.1)
  · exact Option.some_ne_none _ (hq.symm.trans hnone.2)

end Numbers

end Reading

open Reading

/-- Displayed numbers lose nothing. A reader that rounds the text of a finite double correctly gets
its bits back, and nothing else; and numbers, infinities included, differ in their texts if they
differ in their bits. -/
theorem Display.number_reads_back (x y : Float) :
    (x.isFinite = true → (ReadsAs (number x) y ↔ y.toBits = x.toBits)) ∧
    (x.isNaN = false → y.isNaN = false → number x = number y → x.toBits = y.toBits) := by
  rw [Float.toBits_inj, Float.toBits_inj]
  constructor
  · intro hx
    refine ⟨fun hy => readsAs_unique hy (readsAs_number hx), ?_⟩
    rintro rfl
    exact readsAs_number hx
  · intro hx hy heq
    rw [Bool.eq_false_iff, ne_eq, isNaN_iff, not_lt] at hx hy
    by_cases hfinite : ofFloat x < infinite
    · have hreadx := readsAs_number (isFinite_iff.mpr hfinite)
      have hfinite' := ofFloat_lt_infinite_of_readsAs hy (heq ▸ hreadx)
      exact readsAs_unique hreadx (heq ▸ readsAs_number (isFinite_iff.mpr hfinite'))
    · have hfinite' : ¬ofFloat y < infinite := fun hlt =>
        hfinite (ofFloat_lt_infinite_of_readsAs hx
          (heq ▸ readsAs_number (isFinite_iff.mpr hlt)))
      have hx' : ofFloat x = infinite := by omega
      have hy' : ofFloat y = infinite := by omega
      have htext := congrArg String.toList heq
      rw [toList_number_of_infinite hx', toList_number_of_infinite hy'] at htext
      refine eq_iff_signBit_ofFloat.mpr ⟨?_, hx'.trans hy'.symm⟩
      by_cases hsx : signBit x = true <;> by_cases hsy : signBit y = true <;> simp_all

/-- The double nearest to a tenth is displayed as `0.1`, and no other double reads back from it or
is displayed in the same way. -/
theorem Display.number_reads_back_tenth :
    (Float.ofBits 0x3fb999999999999a).isFinite = true ∧
      number (Float.ofBits 0x3fb999999999999a) = "0.1" ∧
      (∀ y, ReadsAs "0.1" y ↔ y.toBits = 0x3fb999999999999a) ∧
      (∀ y, y.isNaN = false → number y = "0.1" → y.toBits = 0x3fb999999999999a) := by
  have hfinite : (Float.ofBits 0x3fb999999999999a).isFinite = true := by decide
  have htext : number (Float.ofBits 0x3fb999999999999a) = "0.1" := by decide +kernel
  have hbits : (Float.ofBits 0x3fb999999999999a).toBits = 0x3fb999999999999a := by decide
  refine ⟨hfinite, htext, fun y => ?_, fun y hy hyt => ?_⟩
  · have h := (number_reads_back (Float.ofBits 0x3fb999999999999a) y).1 hfinite
    rwa [htext, hbits] at h
  · have h := (number_reads_back (Float.ofBits 0x3fb999999999999a) y).2 (by decide) hy
      (htext.trans hyt.symm)
    rw [← h, hbits]

end Calculator
