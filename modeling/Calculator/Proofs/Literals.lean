import Calculator.Proofs.ReadBack

/-!
# Literals are rounded once, and correctly

A run of digits and points denotes a rational number, whatever its length: every digit counts as its
place says. The number is read off the run here without the two natural numbers that the parser
makes of it. What the parser gives for the run is the double nearest to that number, the even one on
a tie; no digit is too far behind to decide.

Rounding to the nearest of the doubles says how it ends on both sides. Infinity counts as
`2 ^ 1024`, and its magnitude is even, so the numbers from the middle to the largest finite double
on are infinite. The doubles next to zero are as far apart as the smallest ones are, so underflow
loses at most half of that distance, and the middle itself goes to zero.

## Main definitions

* `denoted`: the rational number that a run of digits and points denotes.
* `Malformed`: a run of digits and points that denotes no number.

## Main results

* `IsNearest.eq_infinite_iff`, `IsNearest.eq_zero_iff`, `IsNearest.abs_sub_le_of_small`: overflow
  and underflow.
* `ofRun?_eq_none_iff`, `ratio_eq_denoted`: what is read, and as which number.
* `numeral_rounds_correctly`: the parser refuses the malformed runs and rounds the others.
-/

namespace Calculator

namespace Magnitude

/-! ### Where rounding ends -/

/-- The last places that count whole numbers. -/
theorem ulp_add (k : ℕ) : ulp (1074 + k) = 2 ^ k := by
  rw [ulp, unitsPerOne_eq, Nat.cast_pow, Nat.cast_ofNat, pow_add,
    mul_div_cancel_left₀ _ (by positivity)]

theorem value_infinite : value infinite = 2 ^ 1024 := by
  have hsplit : infinite = (1074 + 971) * 2 ^ 52 + 2 ^ 53 := rfl
  rw [hsplit, value_place le_rfl (by omega), ulp_add, Nat.cast_pow, Nat.cast_ofNat]
  exact (pow_add 2 53 971).symm

theorem value_largest : value (infinite - 1) = 2 ^ 1024 - 2 ^ 971 := by
  have hsplit : infinite - 1 = (1074 + 971) * 2 ^ 52 + (2 ^ 53 - 1) := rfl
  rw [hsplit, value_place (by omega) (by omega), ulp_add, Nat.cast_sub Nat.one_le_two_pow,
    sub_mul, Nat.cast_pow, Nat.cast_ofNat, Nat.cast_one, one_mul]
  exact congrArg (· - _) (pow_add 2 53 971).symm

theorem value_one : value 1 = 1 / 2 ^ 1074 := by
  rw [value, units_of_lt (by decide), unitsPerOne_eq, Nat.cast_pow, Nat.cast_one, Nat.cast_ofNat]

section Ends

variable {q : ℚ} {m : ℕ}

/-- A rational rounds to infinity from the middle between the largest finite value and `2 ^ 1024`
on. -/
theorem IsNearest.eq_infinite_iff (h : IsNearest q m) :
    m = infinite ↔ 2 ^ 1024 - 2 ^ 970 ≤ q := by
  have hlargest : value (infinite - 1) < value infinite := value_strictMono (by decide)
  have hmiddle : 2 ^ 1024 - 2 ^ 970 ≤ q ↔ value (infinite - 1) + value infinite ≤ 2 * q := by
    have hpow : (2 : ℚ) ^ 971 = 2 * 2 ^ 970 := pow_succ' 2 970
    rw [value_largest, value_infinite, hpow]
    generalize (2 : ℚ) ^ 1024 = top
    generalize (2 : ℚ) ^ 970 = half
    constructor <;> intro <;> linarith
  rw [hmiddle]
  constructor
  · rintro rfl
    rw [← abs_sub_le_abs_sub_iff_above hlargest]
    exact h.closest _ (Nat.sub_le infinite 1)
  · intro hq
    by_contra hne
    have hm : m ≤ infinite - 1 := by
      have := h.le_infinite
      omega
    have hle : value m ≤ value (infinite - 1) := value_strictMono.monotone hm
    have hlt : value m < value infinite := hle.trans_lt hlargest
    have hbelow := (abs_sub_le_abs_sub_iff_below hlt).mp (h.closest infinite le_rfl)
    -- The finite magnitude can only be the largest, on a tie with infinity. But it is odd.
    have hvalue : value m = value (infinite - 1) := by linarith
    have htie : |q - value m| = |q - value infinite| :=
      (abs_sub_eq_abs_sub_iff hlt).mpr (by linarith)
    have heven := h.even_of_tie infinite le_rfl (Ne.symm hne) htie
    rw [value_strictMono.injective hvalue] at heven
    exact absurd heven (by decide)

/-- A rational rounds to zero up to half of the smallest value. -/
theorem IsNearest.eq_zero_iff (h : IsNearest q m) : m = 0 ↔ q ≤ 1 / 2 ^ 1075 := by
  have hone : value 0 < value 1 := value_strictMono Nat.one_pos
  have hhalf : q ≤ 1 / 2 ^ 1075 ↔ 2 * q ≤ value 0 + value 1 := by
    have hpow : (2 : ℚ) ^ 1075 = 2 ^ 1074 * 2 := pow_succ 2 1074
    rw [value_zero, value_one, hpow, ← div_div, le_div_iff₀ two_pos, zero_add, mul_comm]
  rw [hhalf]
  constructor
  · rintro rfl
    rw [← abs_sub_le_abs_sub_iff_below hone]
    exact h.closest 1 (by decide)
  · intro hle
    -- Zero has no neighbour below, and it is even.
    have hcell : InCell 0 q :=
      ⟨fun k hk => by omega, fun k hk => by omega, hle, fun _ => ⟨0, rfl⟩⟩
    exact h.unique (by simpa using hcell.isNearest)

/-- Underflow is gradual: below the smallest double with a leading bit the error is at most half of
the smallest value. -/
theorem IsNearest.abs_sub_le_of_small (h : IsNearest q m) (hq : 0 ≤ q)
    (hsmall : q ≤ 1 / 2 ^ 1022) : |q - value m| ≤ 1 / 2 ^ 1075 := by
  have hulp : ulp 0 = 1 / 2 ^ 1074 := by
    rw [ulp, unitsPerOne_eq, pow_zero, Nat.cast_pow, Nat.cast_ofNat]
  have hpos := ulp_pos 0
  have hcount : 0 ≤ q / ulp 0 := div_nonneg hq hpos.le
  have hbound : q / ulp 0 ≤ 2 ^ 52 := by
    have hpow : (2 : ℚ) ^ 1074 = 2 ^ 52 * 2 ^ 1022 := pow_add 2 52 1022
    rw [div_le_iff₀ hpos, hulp, hpow, one_div, mul_inv, mul_inv_cancel_left₀ (by norm_num),
      ← one_div]
    exact hsmall
  -- The nearest multiple of the smallest value is the value of a magnitude, so it competes.
  obtain ⟨r, hr⟩ : ∃ r : ℕ, |q / ulp 0 - r| ≤ 1 / 2 := by
    refine ⟨⌊q / ulp 0 + 1 / 2⌋₊, abs_le.mpr ⟨?_, ?_⟩⟩
    · have := Nat.floor_le (add_nonneg hcount one_half_pos.le)
      linarith
    · have := Nat.lt_floor_add_one (q / ulp 0 + 1 / 2)
      linarith
  have hr' : r ≤ 2 ^ 52 + 1 := (bounds_of_abs_sub_le_half hr (2 ^ 52 + 1)).1 (by
    push_cast
    linarith)
  have hvalue : value r = r * ulp 0 := by
    have := value_place (show r ≤ 2 ^ 53 by omega) (.inl rfl : 0 = 0 ∨ 2 ^ 52 ≤ r)
    rwa [Nat.zero_mul, Nat.zero_add] at this
  have hinfinite : r ≤ infinite := hr'.trans (by decide)
  calc |q - value m| ≤ |q - value r| := h.closest r hinfinite
    _ = |q / ulp 0 - r| * ulp 0 := by
      rw [hvalue, ← abs_of_pos hpos, ← abs_mul, abs_of_pos hpos, sub_mul,
        div_mul_cancel₀ q hpos.ne']
    _ ≤ 1 / 2 * ulp 0 := mul_le_mul_of_nonneg_right hr hpos.le
    _ = 1 / 2 ^ 1075 := by
      rw [hulp, div_mul_div_comm, one_mul]
      exact congrArg (1 / ·) (pow_succ' 2 1074).symm

end Ends

end Magnitude

open Magnitude Grammar

/-! ### The number that a run denotes -/

/-- The number that a digit of ASCII stands for. -/
def digitValue (c : Char) : ℕ :=
  c.toNat - '0'.toNat

/-- The number that digits denote in front of a point, where the last one counts ones. -/
def wholePart (digits : List Char) : ℚ :=
  digits.foldl (fun q c => 10 * q + digitValue c) 0

/-- The number that digits denote behind a point, where the first one counts tenths. -/
def fractionalPart (digits : List Char) : ℚ :=
  digits.foldr (fun c q => (digitValue c + q) / 10) 0

/-- The rational number that a run of digits and points denotes, by its digits on either side of the
first point. -/
def denoted (run : List Char) : ℚ :=
  wholePart (run.takeWhile (· != '.')) + fractionalPart ((run.dropWhile (· != '.')).drop 1)

/-- A run of digits and points that denotes no number: it has no digit, or more than one point. -/
def Malformed (run : List Char) : Prop :=
  (∀ c ∈ run, c.isDigit = false) ∨ 2 ≤ run.count '.'

section Runs

variable {run whole fraction : List Char} {n : Numeral}

theorem wholePart_eq (digits : List Char) : wholePart digits = Nat.ofDigitChars 10 digits 0 := by
  have hfold : ∀ start : ℕ, digits.foldl (fun (q : ℚ) c => 10 * q + digitValue c) start =
      Nat.ofDigitChars 10 digits start := by
    induction digits with
    | nil => exact fun start => rfl
    | cons c digits ih =>
      intro start
      rw [List.foldl_cons, Nat.ofDigitChars_cons, ← ih, digitValue]
      push_cast
      rfl
  exact_mod_cast hfold 0

theorem fractionalPart_eq (digits : List Char) :
    fractionalPart digits = Nat.ofDigitChars 10 digits 0 / 10 ^ digits.length := by
  induction digits with
  | nil => simp [fractionalPart]
  | cons c digits ih =>
    have hstep : fractionalPart (c :: digits) = (digitValue c + fractionalPart digits) / 10 := rfl
    have hfirst : Nat.ofDigitChars 10 (c :: digits) 0 =
        10 ^ digits.length * digitValue c + Nat.ofDigitChars 10 digits 0 := by
      rw [Nat.ofDigitChars_cons, Nat.mul_zero, Nat.zero_add, Nat.ofDigitChars_eq_ofDigitChars_zero,
        digitValue]
    rw [hstep, ih, hfirst, List.length_cons]
    push_cast
    field_simp
    ring

/-- What is not read as a numeral are the malformed runs. -/
theorem ofRun?_eq_none_iff (hchars : ∀ c ∈ run, isNumeralChar c = true) :
    Numeral.ofRun? run = none ↔ Malformed run := by
  refine ⟨not_isDigit_or_two_le_count hchars, fun h => ?_⟩
  rw [Option.eq_none_iff_forall_ne_some]
  rintro n hn
  obtain ⟨m, rfl, -⟩ := exists_number_of_ofRun? hchars hn
  obtain ⟨c, hc, hdigit⟩ := m.digit
  rcases h with hnone | hpoints
  · rw [hnone c hc] at hdigit
    cases hdigit
  · exact absurd m.point (not_le.mpr hpoints)

theorem denoted_of_digits (h : ∀ c ∈ run, c.isDigit = true) : denoted run = wholePart run := by
  have hpoint : ∀ c ∈ run, (c != '.') = true :=
    fun c hc => bne_iff_ne.mpr (ne_point_of_isDigit (h c hc))
  rw [denoted, List.takeWhile_eq_self_iff.mpr hpoint, List.dropWhile_eq_nil_iff.mpr hpoint]
  exact add_zero _

theorem denoted_of_point (h : ∀ c ∈ whole, c.isDigit = true) :
    denoted (whole ++ '.' :: fraction) = wholePart whole + fractionalPart fraction := by
  have hpoint : ∀ c ∈ whole, (c != '.') = true :=
    fun c hc => bne_iff_ne.mpr (ne_point_of_isDigit (h c hc))
  rw [denoted, List.takeWhile_append_of_pos hpoint, List.dropWhile_append_of_pos hpoint,
    List.takeWhile_cons_of_neg (by decide), List.dropWhile_cons_of_neg (by decide), List.append_nil]
  rfl

/-- A numeral denotes what its run denotes. -/
theorem ratio_eq_denoted (hchars : ∀ c ∈ run, isNumeralChar c = true)
    (hn : Numeral.ofRun? run = some n) : n.ratio = denoted run := by
  rcases digits_or_point hchars with h | ⟨whole, fraction, rfl, h⟩
  · rw [ofRun?_of_digits h, Numeral.ofParts?] at hn
    split_ifs at hn
    rw [denoted_of_digits h, wholePart_eq, ← Option.some.inj hn]
    simp [Numeral.ratio]
  · rw [ofRun?_of_point h, Numeral.ofParts?] at hn
    split_ifs at hn
    rw [denoted_of_point h, wholePart_eq, fractionalPart_eq, ← Option.some.inj hn, Numeral.ratio,
      Nat.ofDigitChars_append, Nat.ofDigitChars_eq_ofDigitChars_zero]
    push_cast
    field_simp

end Runs

/-! ### Scanned literals -/

/-- A run of digits and points that the parser scans is refused exactly if it has no digit or more
than one point. Otherwise it is given the nearest double, without a sign: the even one on a tie,
infinity from `2 ^ 1024 - 2 ^ 970` on, zero up to `2 ^ -1075`, and below the smallest double with a
leading bit nothing farther away than that. -/
theorem Parser.numeral_rounds_correctly {s t : State} {run : List Char} (hrun : run ≠ [])
    (hscan : s.Scans isNumeralChar run t) :
    ((numeral s).reply = ⟨.error ⟨.malformedNumeral (String.ofList run), s.cursor.position⟩, t⟩ ↔
      Malformed run) ∧
    (¬Malformed run → ∃ e, (numeral s).reply = ⟨.ok e, t⟩ ∧
      signBit e.value = false ∧ IsNearest (denoted run) (ofFloat e.value) ∧
      (ofFloat e.value = infinite ↔ 2 ^ 1024 - 2 ^ 970 ≤ denoted run) ∧
      (ofFloat e.value = 0 ↔ denoted run ≤ 1 / 2 ^ 1075) ∧
      (denoted run ≤ 1 / 2 ^ 1022 → |denoted run - value (ofFloat e.value)| ≤ 1 / 2 ^ 1075)) := by
  -- There is one longest run, so it is the one that the rule reads.
  obtain ⟨rfl, rfl⟩ := hscan.eq
  have hreply := reply_numeral s
  rw [← ofRun?_eq_none_iff hscan.all]
  cases hn : Numeral.ofRun? (s.run isNumeralChar) with
  | none =>
    rw [hn] at hreply
    exact ⟨⟨fun _ => rfl, fun _ => hreply⟩, fun h => absurd rfl h⟩
  | some n =>
    rw [hn] at hreply
    have hnearest := n.isNearest_ratio
    obtain ⟨hmagnitude, hsign⟩ := toFloat_spec hnearest.le_infinite
    rw [← Numeral.value_eq_toFloat hnearest] at hmagnitude hsign
    rw [ratio_eq_denoted hscan.all hn, ← hmagnitude] at hnearest
    refine ⟨⟨fun h => ?_, fun h => by cases h⟩, fun _ => ⟨.numeral n, hreply, hsign, hnearest,
      hnearest.eq_infinite_iff, hnearest.eq_zero_iff, hnearest.abs_sub_le_of_small ?_⟩⟩
    · rw [hreply] at h
      cases h
    · rw [← ratio_eq_denoted hscan.all hn, Numeral.ratio]
      positivity

/-- The number `2 ^ 53 + 1` lies in the middle between two doubles, and the literal is given the
even one, `2 ^ 53`. -/
theorem Parser.numeral_rounds_correctly_tie :
    let s := State.start 1 "9007199254740993*2".toList
    let run := "9007199254740993".toList
    run ≠ [] ∧ s.Scans isNumeralChar run (s.skipWhile isNumeralChar) ∧ ¬Malformed run ∧
      denoted run = 2 ^ 53 + 1 ∧
      ∃ e, (numeral s).reply = ⟨.ok e, s.skipWhile isNumeralChar⟩ ∧
        IsNearest (2 ^ 53 + 1) (ofFloat e.value) ∧ value (ofFloat e.value) = 2 ^ 53 := by
  intro s run
  have hrun : run ≠ [] := by decide
  have hscan : s.Scans isNumeralChar run (s.skipWhile isNumeralChar) := by
    have hrun' : s.run isNumeralChar = run := by decide
    exact hrun' ▸ s.scans_run isNumeralChar
  have hn : Numeral.ofRun? run = some ⟨9007199254740993, 0⟩ := by decide
  have hwell : ¬Malformed run := by
    rw [← ofRun?_eq_none_iff hscan.all, hn]
    exact Option.some_ne_none _
  have hratio : Numeral.ratio ⟨9007199254740993, 0⟩ = 2 ^ 53 + 1 := by
    rw [Numeral.ratio]
    norm_num
  have hdenoted : denoted run = 2 ^ 53 + 1 := (ratio_eq_denoted hscan.all hn).symm.trans hratio
  obtain ⟨e, hreply, -, hnearest, -⟩ := (numeral_rounds_correctly hrun hscan).2 hwell
  rw [hdenoted] at hnearest
  refine ⟨hrun, hscan, hwell, hdenoted, e, hreply, hnearest, ?_⟩
  have hfound : nearest 9007199254740993 (10 ^ 0) = (1074 + 1) * 2 ^ 52 + 2 ^ 52 := by
    decide +kernel
  have hnearest' := Numeral.isNearest_ratio ⟨9007199254740993, 0⟩
  rw [hratio, hfound] at hnearest'
  rw [hnearest.unique hnearest', value_place (by omega) (by omega), ulp_add]
  norm_num

end Calculator
