import Calculator.Evaluation
import Calculator.Proofs.Minimality

/-!
# The shapes of displayed numbers

A finite double is displayed in one of two shapes. In the positional shape digits stand on both
sides of a point, in the scientific shape an exponent follows a single digit and maybe others behind
a point; neither shape has a zero that could be left out.

Which of them it is depends on the double, not on the digits that are shown for it. That the digits
agree with the choice is a matter of rounding: shortest decimals are in the same order as the
doubles that they stand for (`ratio_shortest_le_iff`), and the bounds `10 ^ -4` and `10 ^ 16` are
the shortest decimals of the two doubles where the layout changes. So no decimal is carried across
a bound by having been shortened.

## Main definitions

* `IsNatural`, `IsFraction`, `IsInteger`: numbers in decimal, without zeros that could be left out.
* `IsPositional`, `IsScientific`: the two shapes.
* `Display.InRange`: the doubles that are displayed in the positional shape.

## Main results

* `isPositional_positional`, `isScientific_scientific`: the layouts have these shapes.
* `positionalFrom_le_iff_ratio`, `positionalBelow_le_iff_ratio`: the digits agree with the layout.
* `Display.number_layout`: the shape of every displayed number.
-/

namespace Calculator

open Magnitude

/-! ### Shapes -/

/-- A natural number in decimal, without superfluous zeros in front. -/
structure IsNatural (digits : List Char) : Prop where
  isDigit : ∀ c ∈ digits, c.isDigit = true
  ne_nil : digits ≠ []
  head : digits.head? = some '0' → digits = ['0']

/-- The digits behind a point, at least one, without superfluous zeros at the end. -/
structure IsFraction (digits : List Char) : Prop where
  isDigit : ∀ c ∈ digits, c.isDigit = true
  ne_nil : digits ≠ []
  last : digits.getLast? = some '0' → digits = ['0']

theorem isNatural_zero : IsNatural ['0'] :=
  ⟨List.forall_mem_singleton.mpr rfl, List.cons_ne_nil _ _, fun _ => rfl⟩

theorem isFraction_zero : IsFraction ['0'] :=
  ⟨List.forall_mem_singleton.mpr rfl, List.cons_ne_nil _ _, fun _ => rfl⟩

/-- An integer in decimal. It may have a minus sign, but no plus sign. -/
inductive IsInteger : List Char → ℤ → Prop
  | natural {digits : List Char} (h : IsNatural digits) :
      IsInteger digits (Nat.ofDigitChars 10 digits 0)
  | negative {digits : List Char} (h : IsNatural digits) :
      IsInteger ('-' :: digits) (-Nat.ofDigitChars 10 digits 0)

/-- The positional shape: digits on both sides of a point. -/
inductive IsPositional : List Char → Prop
  | point {whole fraction : List Char} (hwhole : IsNatural whole)
      (hfraction : IsFraction fraction) : IsPositional (whole ++ '.' :: fraction)

/-- The scientific shape with the exponent `e`. A digit from `1` to `9` comes first, and others may
follow behind a point, the last of them not zero. -/
inductive IsScientific : List Char → ℤ → Prop
  | digit {lead : Char} {exponent : List Char} {e : ℤ} (hdigit : lead.isDigit = true)
      (hlead : lead ≠ '0') (he : IsInteger exponent e) : IsScientific (lead :: 'e' :: exponent) e
  | point {lead : Char} {fraction exponent : List Char} {e : ℤ} (hdigit : lead.isDigit = true)
      (hlead : lead ≠ '0') (hfraction : IsFraction fraction)
      (hlast : fraction.getLast? ≠ some '0') (he : IsInteger exponent e) :
      IsScientific (lead :: '.' :: (fraction ++ 'e' :: exponent)) e

section Shapes

variable {text : List Char} {e : ℤ}

/-- Numbers in the positional shape start with a digit. -/
theorem IsPositional.exists_head (h : IsPositional text) :
    ∃ c ∈ text.head?, c.isDigit = true := by
  obtain ⟨hwhole, hfraction⟩ := h
  obtain ⟨c, digits, rfl⟩ := List.exists_cons_of_ne_nil hwhole.ne_nil
  exact ⟨c, rfl, hwhole.isDigit c List.mem_cons_self⟩

/-- Numbers in the scientific shape start with a digit. -/
theorem IsScientific.exists_head (h : IsScientific text e) :
    ∃ c ∈ text.head?, c.isDigit = true := by
  cases h with
  | digit hdigit => exact ⟨_, rfl, hdigit⟩
  | point hdigit => exact ⟨_, rfl, hdigit⟩

/-- No text has both shapes. -/
theorem IsScientific.not_isPositional (h : IsScientific text e) : ¬IsPositional text := by
  have hmem : 'e' ∈ text := by cases h <;> simp
  rintro ⟨hwhole, hfraction⟩
  rcases List.mem_append.mp hmem with hmem | hmem
  · exact absurd (hwhole.isDigit 'e' hmem) (by decide)
  · rcases List.mem_cons.mp hmem with heq | hmem
    · cases heq
    · exact absurd (hfraction.isDigit 'e' hmem) (by decide)

end Shapes

/-! ### The layouts have these shapes -/

theorem isNatural_toDigits (n : ℕ) : IsNatural (Nat.toDigits 10 n) := by
  refine ⟨fun c hc => Nat.isDigit_of_mem_toDigits (by decide) (by decide) hc,
    Nat.toDigits_ne_nil, fun hhead => ?_⟩
  rcases n.eq_zero_or_pos with rfl | hpos
  · rfl
  · exact absurd hhead (Decimal.head?_toDigits hpos)

theorem isInteger_integerText (n : ℤ) : IsInteger (integerText n) n := by
  have hdigits := isNatural_toDigits n.natAbs
  have hvalue : Nat.ofDigitChars 10 (Nat.toDigits 10 n.natAbs) 0 = n.natAbs :=
    Nat.ofDigitChars_ten_toDigits
  unfold integerText
  split_ifs with hneg
  · have h := IsInteger.negative hdigits
    rwa [hvalue, show -(n.natAbs : ℤ) = n by omega] at h
  · have h := IsInteger.natural hdigits
    rwa [hvalue, show (n.natAbs : ℤ) = n by omega] at h

namespace Decimal

variable {d : Decimal}

/-- The positional layout. Its zeros hold places, or one stands alone on its side. -/
theorem isPositional_positional (h : d.Proper) (htrimmed : Trimmed d.digits) :
    IsPositional d.positional := by
  obtain ⟨whole, fraction, i, j, heq, hspread⟩ := Reading.exists_spread h
  have hdigits := hspread.append_eq
  rw [heq]
  constructor
  case hwhole =>
    refine ⟨hspread.isDigit_whole h, hspread.whole_ne_nil, fun hzero => ?_⟩
    refine hspread.front.resolve_left fun hi => htrimmed.head ?_
    -- Without zeros in front, the first digit is that of the decimal.
    rw [hi, List.replicate_zero, List.nil_append] at hdigits
    rw [← List.head?_append_of_ne_nil _ h.ne_nil, ← hdigits,
      List.head?_append_of_ne_nil _ hspread.whole_ne_nil, hzero]
  case hfraction =>
    refine ⟨hspread.isDigit_fraction h, hspread.fraction_ne_nil, fun hzero => ?_⟩
    refine hspread.behind.resolve_left fun hj => htrimmed.last ?_
    rw [hj, List.replicate_zero, List.append_nil] at hdigits
    rw [← List.getLast?_append_of_ne_nil _ h.ne_nil, ← hdigits,
      List.getLast?_append_of_ne_nil _ hspread.fraction_ne_nil, hzero]

/-- A decimal without a zero in front starts with a digit from `1` to `9`. -/
theorem exists_lead (h : d.Proper) (htrimmed : Trimmed d.digits) :
    ∃ lead rest, d.digits = lead :: rest ∧ lead.isDigit = true ∧ lead ≠ '0' := by
  obtain ⟨lead, rest, hdigits⟩ := List.exists_cons_of_ne_nil h.ne_nil
  refine ⟨lead, rest, hdigits, h.isDigit lead (hdigits ▸ List.mem_cons_self), ?_⟩
  rintro rfl
  exact htrimmed.head (by rw [hdigits, List.head?_cons])

/-- The scientific layout. Its exponent counts from behind the first digit. -/
theorem isScientific_scientific (h : d.Proper) (htrimmed : Trimmed d.digits) :
    IsScientific d.scientific (d.point - 1) := by
  have hexponent := isInteger_integerText (d.point - 1)
  obtain ⟨lead, fraction, hdigits, hdigit, hlead⟩ := exists_lead h htrimmed
  -- The point is left out if no digit would follow it.
  by_cases hnil : fraction = []
  · have htext : d.scientific = lead :: 'e' :: integerText (d.point - 1) := by
      simp [scientific, hdigits, hnil]
    rw [htext]
    exact .digit hdigit hlead hexponent
  · have htext : d.scientific = lead :: '.' :: (fraction ++ 'e' :: integerText (d.point - 1)) := by
      simp [scientific, hdigits, hnil]
    have hlast : fraction.getLast? ≠ some '0' := by
      have hcons : (lead :: fraction).getLast? = fraction.getLast? :=
        List.getLast?_append_of_ne_nil [lead] hnil
      rw [← hcons, ← hdigits]
      exact htrimmed.last
    have hfraction : IsFraction fraction :=
      ⟨fun c hc => h.isDigit c (hdigits ▸ List.mem_cons_of_mem _ hc), hnil,
        fun hzero => absurd hzero hlast⟩
    rw [htext]
    exact .point hdigit hlead hfraction hlast hexponent

/-! ### Digits and bounds -/

/-- Digits that do not start with a zero are worth no less than a one in front. -/
theorem le_ofDigitChars {lead : Char} {digits : List Char} (hdigit : lead.isDigit = true)
    (hlead : lead ≠ '0') : 10 ^ digits.length ≤ Nat.ofDigitChars 10 (lead :: digits) 0 := by
  have hpos : 1 ≤ lead.toNat - '0'.toNat := by
    have hle : 48 ≤ lead.toNat := by
      simp only [Char.isDigit, Bool.and_eq_true, decide_eq_true_eq, UInt32.le_iff_toNat_le,
        ge_iff_le] at hdigit
      exact hdigit.1
    have hne : lead.toNat ≠ 48 := fun heq => hlead (Char.toNat_inj.mp heq)
    have hzero : '0'.toNat = 48 := rfl
    omega
  rw [Nat.ofDigitChars_cons, Nat.mul_zero, Nat.zero_add, Nat.ofDigitChars_eq_ofDigitChars_zero]
  exact Nat.le_add_right_of_le (Nat.le_mul_of_pos_right _ hpos)

/-- The point tells the size of a decimal that does not start with a zero. -/
theorem ratio_bounds (h : d.Proper) (htrimmed : Trimmed d.digits) :
    10 ^ (d.point - 1) ≤ d.ratio ∧ d.ratio < 10 ^ d.point := by
  obtain ⟨lead, rest, hdigits, hdigit, hlead⟩ := exists_lead h htrimmed
  have hlower : 10 ^ rest.length ≤ Nat.ofDigitChars 10 d.digits 0 := by
    rw [hdigits]
    exact le_ofDigitChars hdigit hlead
  have hupper := ofDigitChars_lt h.isDigit
  have hlength : d.digits.length = rest.length + 1 := by rw [hdigits, List.length_cons]
  have hscale : (0 : ℚ) < 10 ^ (d.point - d.digits.length) := zpow_pos (by norm_num) _
  constructor
  · calc (10 : ℚ) ^ (d.point - 1)
        = 10 ^ rest.length * 10 ^ (d.point - d.digits.length) := by
          rw [← zpow_natCast, ← zpow_add₀ (by norm_num), hlength]
          congr 1
          push_cast
          ring
      _ ≤ d.ratio := mul_le_mul_of_nonneg_right (by exact_mod_cast hlower) hscale.le
  · calc d.ratio
        < 10 ^ d.digits.length * 10 ^ (d.point - d.digits.length) :=
          mul_lt_mul_of_pos_right (by exact_mod_cast hupper) hscale
      _ = 10 ^ d.point := by
          rw [← zpow_natCast, ← zpow_add₀ (by norm_num), add_sub_cancel]

end Decimal

section Bounds

variable {m n : ℕ}

/-- Shortest decimals are in the order of the magnitudes that they stand for. -/
theorem ratio_shortest_le_iff (hm : 0 < m) (hmfinite : m < infinite) (hn : 0 < n)
    (hnfinite : n < infinite) :
    (Decimal.shortest m).ratio ≤ (Decimal.shortest n).ratio ↔ m ≤ n := by
  have hmnearest := Reading.isNearest_ratio_shortest hm hmfinite
  have hnnearest := Reading.isNearest_ratio_shortest hn hnfinite
  constructor
  · exact hmnearest.mono hnnearest
  · intro hle
    -- In the other order, the two decimals would round to the same magnitude.
    by_contra hlt
    have hge := hnnearest.mono hmnearest (not_le.mp hlt).le
    obtain rfl : m = n := le_antisymm hle hge
    exact hlt le_rfl

/-- The digits of a magnitude are not below `10 ^ -4` if it is written positionally. -/
theorem positionalFrom_le_iff_ratio (hm : 0 < m) (hfinite : m < infinite) :
    Display.positionalFrom ≤ m ↔ 10 ^ (-4 : ℤ) ≤ (Decimal.shortest m).ratio := by
  have hpos : 0 < Display.positionalFrom := by decide +kernel
  have hfrom : Display.positionalFrom < infinite := by decide +kernel
  have hshortest : Decimal.shortest Display.positionalFrom = ⟨['1'], -3⟩ := by decide +kernel
  have hratio : Decimal.ratio ⟨['1'], -3⟩ = 10 ^ (-4 : ℤ) := by
    have hone : Nat.ofDigitChars 10 ['1'] 0 = 1 := rfl
    norm_num [Decimal.ratio, hone]
  rw [← ratio_shortest_le_iff hpos hfrom hm hfinite, hshortest, hratio]

/-- The digits of a magnitude are not below `10 ^ 16` if it is too large for the positional
layout. -/
theorem positionalBelow_le_iff_ratio (hm : 0 < m) (hfinite : m < infinite) :
    Display.positionalBelow ≤ m ↔ 10 ^ (16 : ℤ) ≤ (Decimal.shortest m).ratio := by
  have hpos : 0 < Display.positionalBelow := by decide +kernel
  have hshortest : Decimal.shortest Display.positionalBelow = ⟨['1'], 17⟩ := by decide +kernel
  have hratio : Decimal.ratio ⟨['1'], 17⟩ = 10 ^ (16 : ℤ) := by
    have hone : Nat.ofDigitChars 10 ['1'] 0 = 1 := rfl
    norm_num [Decimal.ratio, hone]
  rw [← ratio_shortest_le_iff hpos Reading.positionalBelow_lt hm hfinite, hshortest, hratio]

/-- The text of a magnitude that is written positionally. -/
theorem isPositional_magnitude
    (h : m = 0 ∨ Display.positionalFrom ≤ m ∧ m < Display.positionalBelow) :
    IsPositional (Display.magnitude m) := by
  rcases m.eq_zero_or_pos with rfl | hm
  · have hzero : Display.magnitude 0 = ['0'] ++ '.' :: ['0'] := by
      have hpos : 0 < infinite := Nat.zero_lt_of_lt Reading.positionalBelow_lt
      rw [Display.magnitude, if_neg hpos.le.not_gt, if_neg hpos.ne, if_pos rfl]
      rfl
    rw [hzero]
    exact .point isNatural_zero isFraction_zero
  · have hrange := h.resolve_left hm.ne'
    rw [Reading.magnitude_eq hm (hrange.2.trans Reading.positionalBelow_lt), if_pos hrange]
    exact Decimal.isPositional_positional (Decimal.proper_shortest hm) (trimmed_shortest hm)

/-- The text of any other finite magnitude, and what exponents it can have. -/
theorem exists_isScientific_magnitude (hfinite : m < infinite)
    (h : ¬(m = 0 ∨ Display.positionalFrom ≤ m ∧ m < Display.positionalBelow)) :
    ∃ e, IsScientific (Display.magnitude m) e ∧ (e ≤ -5 ∨ 16 ≤ e) := by
  obtain ⟨hne, hrange⟩ := not_or.mp h
  have hm := Nat.pos_of_ne_zero hne
  have hproper := Decimal.proper_shortest hm
  obtain ⟨hlower, hupper⟩ := Decimal.ratio_bounds hproper (trimmed_shortest hm)
  rw [Reading.magnitude_eq hm hfinite, if_neg hrange]
  refine ⟨_, Decimal.isScientific_scientific hproper (trimmed_shortest hm), ?_⟩
  rw [positionalFrom_le_iff_ratio hm hfinite, ← not_le,
    positionalBelow_le_iff_ratio hm hfinite, not_and_or, not_not, not_le] at hrange
  -- Beyond a bound, the power of ten in front of the digits or behind them is beyond it too.
  rcases hrange with hsmall | hlarge
  · have hexponent := hlower.trans_lt hsmall
    rw [zpow_lt_zpow_iff_right₀ (by norm_num)] at hexponent
    omega
  · have hexponent := hlarge.trans_lt hupper
    rw [zpow_lt_zpow_iff_right₀ (by norm_num)] at hexponent
    omega

/-- No text of a magnitude starts with a minus sign, or as the text shown for failures does. -/
theorem exists_head_magnitude (m : ℕ) : ∃ c ∈ (Display.magnitude m).head?, c ≠ '-' ∧ c ≠ 'E' := by
  have hdigit : ∀ {c : Char}, c.isDigit = true → c ≠ '-' ∧ c ≠ 'E' := by
    intro c hc
    constructor <;> rintro rfl <;> cases hc
  rcases lt_trichotomy m infinite with hlt | rfl | hgt
  · by_cases hrange : m = 0 ∨ Display.positionalFrom ≤ m ∧ m < Display.positionalBelow
    · obtain ⟨c, hc, h⟩ := (isPositional_magnitude hrange).exists_head
      exact ⟨c, hc, hdigit h⟩
    · obtain ⟨e, hshape, -⟩ := exists_isScientific_magnitude hlt hrange
      obtain ⟨c, hc, h⟩ := hshape.exists_head
      exact ⟨c, hc, hdigit h⟩
  · rw [Display.magnitude, if_neg (lt_irrefl _), if_pos rfl]
    exact ⟨'I', rfl, by decide, by decide⟩
  · rw [Display.magnitude, if_pos hgt]
    exact ⟨'N', rfl, by decide, by decide⟩

end Bounds

/-! ### Displayed numbers -/

namespace Display

variable {x : Float}

/-- The double is zero, or its size is at least `10 ^ -4` and below `10 ^ 16`, by comparing
doubles. -/
def InRange (x : Float) : Prop :=
  (x == 0) = true ∨ 1e-4 ≤ x.abs ∧ x.abs < 1e16

theorem inRange_iff (h : ofFloat x < infinite) :
    InRange x ↔ ofFloat x = 0 ∨ positionalFrom ≤ ofFloat x ∧ ofFloat x < positionalBelow := by
  -- The literals are the two doubles where the layout changes.
  have hfrom : ofFloat 1e-4 = positionalFrom ∧ signBit 1e-4 = false := by decide +kernel
  have hbelow : ofFloat 1e16 = positionalBelow ∧ signBit 1e16 = false := by decide +kernel
  have hfrom' : ofFloat 1e-4 ≤ infinite := by decide +kernel
  have hbelow' : ofFloat 1e16 ≤ infinite := by decide +kernel
  obtain ⟨habs, hsign⟩ := abs_spec h.le
  have habs' : ofFloat x.abs ≤ infinite := habs.trans_le h.le
  rw [InRange, beq_zero_iff, le_iff_ofFloat hfrom' habs' hfrom.2 hsign,
    lt_iff_ofFloat habs' hbelow' hsign hbelow.2, habs, hfrom.1, hbelow.1]

/-- A displayed number starts with a minus sign exactly if it has the sign bit. -/
theorem head?_number_eq_minus_iff (h : ofFloat x ≤ infinite) :
    (number x).toList.head? = some '-' ↔ signBit x = true := by
  obtain ⟨c, hc, hminus, -⟩ := exists_head_magnitude (ofFloat x)
  rw [Reading.toList_number h]
  split_ifs with hsign
  · simp [hsign]
  · rw [Option.mem_def.mp hc]
    simp [hsign, hminus]

/-- No displayed number is the text shown for failures. -/
theorem number_ne_errorText (x : Float) : number x ≠ errorText := by
  intro heq
  have hhead : (number x).toList.head? = some 'E' := by
    rw [heq]
    rfl
  obtain ⟨c, hc, -, hne⟩ := exists_head_magnitude (ofFloat x)
  simp only [number, String.toList_ofList] at hhead
  split_ifs at hhead
  · cases hhead
  · rw [List.nil_append, Option.mem_def.mp hc] at hhead
    exact hne (Option.some.inj hhead)

/-- The shape of displayed numbers. A number starts with a minus sign exactly if it has the sign
bit. A finite one is positional exactly if it is zero or its size lies between `10 ^ -4` and
`10 ^ 16`, where doubles are compared, and then the decimal that is shown lies between the same
bounds; any other finite one is scientific, with an exponent of at most `-5` or at least `16`. Only
failures are shown as failures. -/
theorem number_layout :
    (∀ x : Float, x.isNaN = false →
      ((number x).toList.head? = some '-' ↔ signBit x = true)) ∧
    (∀ x : Float, x.isFinite = true →
      ∃ text, (number x).toList = (if signBit x then ['-'] else []) ++ text ∧
        (IsPositional text ↔ InRange x) ∧
        (¬InRange x → ∃ e, IsScientific text e ∧ (e ≤ -5 ∨ 16 ≤ e)) ∧
        (InRange x → (x == 0) = false →
          ∃ q, Reading.decimal? (number x).toList = some (signBit x, q) ∧
            10 ^ (-4 : ℤ) ≤ q ∧ q < 10 ^ (16 : ℤ))) ∧
    (∀ r : Outcome, outcome r = "Error" ↔ ∃ f, r = .error f) := by
  refine ⟨fun x hx => ?_, fun x hx => ?_, fun r => ?_⟩
  · rw [Bool.eq_false_iff, ne_eq, isNaN_iff, not_lt] at hx
    exact head?_number_eq_minus_iff hx
  · rw [isFinite_iff] at hx
    rw [inRange_iff hx]
    refine ⟨magnitude (ofFloat x), ?_, ⟨fun hshape => ?_, isPositional_magnitude⟩,
      exists_isScientific_magnitude hx, fun hrange hne => ?_⟩
    · rw [Reading.toList_number hx.le]
      split_ifs <;> rfl
    · by_contra hrange
      obtain ⟨e, hscientific, -⟩ := exists_isScientific_magnitude hx hrange
      exact hscientific.not_isPositional hshape
    · rw [Bool.eq_false_iff, ne_eq, beq_zero_iff] at hne
      have hpos := Nat.pos_of_ne_zero hne
      obtain ⟨hfrom, hbelow⟩ := hrange.resolve_left hne
      refine ⟨_, Reading.decimal?_number hx.le (Reading.unsigned?_magnitude hpos hx),
        (positionalFrom_le_iff_ratio hpos hx).mp hfrom, ?_⟩
      rwa [← not_le, ← positionalBelow_le_iff_ratio hpos hx, not_le]
  · cases r with
    | error f => exact ⟨fun _ => ⟨f, rfl⟩, fun _ => rfl⟩
    | ok x =>
      constructor
      · exact fun h => absurd h (number_ne_errorText x)
      · rintro ⟨f, ⟨⟩⟩

/-- The double next to `10 ^ -4` from below is displayed with sixteen digits, and these are still
below it. -/
theorem number_layout_small :
    (Float.ofBits 0x3f1a36e2eb1c432c).isFinite = true ∧
      ¬InRange (Float.ofBits 0x3f1a36e2eb1c432c) ∧
      number (Float.ofBits 0x3f1a36e2eb1c432c) = "9.999999999999999e-5" ∧
      ∃ e, IsScientific "9.999999999999999e-5".toList e ∧ (e ≤ -5 ∨ 16 ≤ e) := by
  have hfinite : (Float.ofBits 0x3f1a36e2eb1c432c).isFinite = true := by decide
  have hrange : ¬InRange (Float.ofBits 0x3f1a36e2eb1c432c) := by
    unfold InRange
    decide +kernel
  have htext : number (Float.ofBits 0x3f1a36e2eb1c432c) = "9.999999999999999e-5" := by
    decide +kernel
  have hsign : signBit (Float.ofBits 0x3f1a36e2eb1c432c) = false := by decide
  obtain ⟨text, heq, -, hscientific, -⟩ := number_layout.2.1 _ hfinite
  rw [htext, hsign] at heq
  obtain rfl : "9.999999999999999e-5".toList = text := heq
  exact ⟨hfinite, hrange, htext, hscientific hrange⟩

end Display

end Calculator
