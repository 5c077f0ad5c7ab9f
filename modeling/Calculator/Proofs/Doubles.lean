import Calculator.Proofs.Rounding
import Mathlib

/-!
# The bits of doubles

A double is its sign bit and its magnitude, and the operations on doubles that the calculator needs
for signs can be read off them. Doubles are those of Lean's own logical model, which unpacks the
bits into a sign, an exponent and a fraction; here the bits are put together from these three
fields.

## Main definitions

* `Unpacks`: what a number without a sign is unpacked to, by its magnitude.

## Main results

* `eq_iff_signBit_ofFloat`: a double is determined by its sign bit and its magnitude.
* `isFinite_iff`, `isNaN_iff`: what is finite and what is not a number, by magnitude.
* `value_ofFloat`: the value of a magnitude is that of the unpacked double.
* `neg_spec`: a minus sign changes the sign bit and nothing else.
* `abs_spec`, `toFloat_spec`: the double without its sign, and the one made of a magnitude.
* `le_iff_ofFloat`, `lt_iff_ofFloat`: doubles without a sign are compared by their magnitudes.
-/

namespace Calculator.Magnitude

open Float.Model Float.Model.UnpackedFloat

/-! ### The three fields -/

section Fields

variable (s : UnpackedFloat.Sign) (e : BitVec 11) (f : BitVec 52)

/-- The bits of a double with the given fields. -/
abbrev fields : BitVec Format.binary64.numBits :=
  packComponents Format.binary64 s e f

theorem toNat_fields :
    (fields s e f).toNat = s.toBitVec.toNat * 2 ^ 63 + (e.toNat * 2 ^ 52 + f.toNat) := by
  unfold fields packComponents
  rw [BitVec.toNat_append, BitVec.toNat_append, ← Nat.shiftLeft_add_eq_or_of_lt e.isLt,
    ← Nat.shiftLeft_add_eq_or_of_lt f.isLt, Nat.shiftLeft_eq, Nat.shiftLeft_eq]
  ring

theorem exists_fields (b : BitVec Format.binary64.numBits) : ∃ s e f, fields s e f = b :=
  ⟨_, _, _, packComponents_unpackSign_unpackExponent_unpackMantissa b⟩

theorem infinite_le_iff : infinite ≤ e.toNat * 2 ^ 52 + f.toNat ↔ e = -1#11 := by
  have he := e.isLt
  have hf := f.isLt
  have hlast : e = -1#11 ↔ e.toNat = 2047 := BitVec.toNat_inj.symm
  rw [hlast, infinite, Nat.pow_eq]
  omega

theorem infinite_lt_iff :
    infinite < e.toNat * 2 ^ 52 + f.toNat ↔ e = -1#11 ∧ f ≠ 0#52 := by
  have he := e.isLt
  have hf := f.isLt
  have hlast : e = -1#11 ↔ e.toNat = 2047 := BitVec.toNat_inj.symm
  have hzero : f = 0#52 ↔ f.toNat = 0 := BitVec.toNat_inj.symm
  rw [hlast, ne_eq, hzero, infinite, Nat.pow_eq]
  omega

variable {e f} in
/-- A magnitude up to infinity is that of a number. -/
theorem fraction_eq_zero (h : e.toNat * 2 ^ 52 + f.toNat ≤ infinite) (he : e = -1#11) :
    f = 0#52 := by
  by_contra hf
  exact absurd ((infinite_lt_iff e f).mpr ⟨he, hf⟩) (not_lt.mpr h)

theorem toNat_leading : (1#1 ++ f).toNat = 2 ^ 52 + f.toNat := by
  rw [BitVec.toNat_append, ← Nat.shiftLeft_add_eq_or_of_lt f.isLt, Nat.shiftLeft_eq]
  rfl

/-- Unpacking by fields. The largest exponent is for infinity and what is not a number, the smallest
for zero and the fractions without their leading bit. -/
theorem unpack_fields :
    UnpackedFloat.unpack Format.binary64 (fields s e f) =
      if e = -1#11 then if f = 0#52 then .infinity s else .notANumber
      else if e = 0#11 then
        if h : f = 0#52 then .zero s
        else .finite s f.toNat (-1074) (by simpa [BitVec.toNat_pos, BitVec.pos_iff_ne_zero] using h)
      else .finite s (1#1 ++ f).toNat (e.toNat - 1075) (by rw [toNat_leading]; omega) := by
  simp only [UnpackedFloat.unpack, unpackExponent_packComponents, unpackMantissa_packComponents,
    unpackSign_packComponents, UnpackedFloat.Sign.ofBitVec_toBitVec]
  by_cases hlast : e = -1#11
  · simp [hlast]
  · by_cases hfirst : e = 0#11
    · subst hfirst
      simp
      rfl
    · simp [hfirst]
      rfl

/-- What can be told apart is packed back to its own bits. -/
theorem pack_unpack_fields (h : e = -1#11 → f = 0#52) :
    UnpackedFloat.pack Format.binary64 (UnpackedFloat.unpack Format.binary64 (fields s e f)) =
      fields s e f := by
  have hnumber : ¬isNaNBits (fields s e f) = true := by
    simpa [isNaNBits] using h
  rw [pack_unpack, if_neg hnumber]

/-- A minus sign changes the first field. -/
theorem neg_unpack_fields :
    (UnpackedFloat.unpack Format.binary64 (fields s e f)).neg =
      UnpackedFloat.unpack Format.binary64 (fields (-s) e f) := by
  rw [unpack_fields, unpack_fields]
  split_ifs <;> rfl

end Fields

/-! ### Doubles by their fields -/

section Doubles

variable {x y : Float} {m : ℕ} {s : UnpackedFloat.Sign} {e : BitVec 11} {f : BitVec 52}

theorem exists_toBits (x : Float) : ∃ s e f, x.toBits.toBitVec = fields s e f := by
  obtain ⟨s, e, f, h⟩ := exists_fields x.toBits.toBitVec
  exact ⟨s, e, f, h.symm⟩

theorem ofFloat_of_toBits (h : x.toBits.toBitVec = fields s e f) :
    ofFloat x = e.toNat * 2 ^ 52 + f.toNat := by
  have he := e.isLt
  have hf := f.isLt
  unfold ofFloat
  rw [← UInt64.toNat_toBitVec, h, toNat_fields, Nat.pow_eq]
  omega

theorem signBit_of_toBits (h : x.toBits.toBitVec = fields s e f) :
    signBit x = decide (s.toBitVec = 1#1) := by
  have he := e.isLt
  have hf := f.isLt
  unfold signBit
  rw [← UInt64.toNat_toBitVec, h, toNat_fields, Nat.pow_eq]
  cases s
  case negative => simp [UnpackedFloat.Sign.toBitVec]
  case positive =>
    simp [UnpackedFloat.Sign.toBitVec]
    omega

/-- A double is determined by its sign bit and its magnitude. -/
theorem eq_iff_signBit_ofFloat : x = y ↔ signBit x = signBit y ∧ ofFloat x = ofFloat y := by
  refine ⟨fun h => by simp [h], fun ⟨hsign, hmagnitude⟩ => ?_⟩
  have hx := x.toBits.toNat_lt
  have hy := y.toBits.toNat_lt
  simp only [signBit, ofFloat, Nat.pow_eq, decide_eq_decide] at hsign hmagnitude
  exact Float.toBits_inj.mp (UInt64.toNat.inj (by omega))

theorem isFinite_iff : x.isFinite = true ↔ ofFloat x < infinite := by
  obtain ⟨s, e, f, h⟩ := exists_toBits x
  have hunpack : x.isFinite = (UnpackedFloat.unpack Format.binary64 (fields s e f)).isFinite := by
    rw [← h]
    rfl
  rw [hunpack, ofFloat_of_toBits h, ← not_le, infinite_le_iff, unpack_fields]
  split_ifs <;> simp_all [UnpackedFloat.isFinite]

theorem isNaN_iff : x.isNaN = true ↔ infinite < ofFloat x := by
  obtain ⟨s, e, f, h⟩ := exists_toBits x
  have hunpack : x.isNaN = (UnpackedFloat.unpack Format.binary64 (fields s e f)).isNaN := by
    rw [← h]
    rfl
  rw [hunpack, ofFloat_of_toBits h, infinite_lt_iff, unpack_fields]
  split_ifs <;> simp_all [UnpackedFloat.isNaN]

/-- The value of a magnitude is that of the double as Lean unpacks it. -/
theorem value_ofFloat {n : ℕ} {exponent : ℤ} {hn : 0 < n}
    (h : x.toModel.unpack = .finite s n exponent hn) :
    value (ofFloat x) = n * 2 ^ exponent := by
  obtain ⟨s', e, f, hbits⟩ := exists_toBits x
  have hone : (unitsPerOne : ℚ) = 2 ^ (1074 : ℤ) := by
    rw [unitsPerOne_eq, Nat.cast_pow, Nat.cast_ofNat, ← zpow_natCast, Nat.cast_ofNat]
  have hunpack : x.toModel.unpack = UnpackedFloat.unpack Format.binary64 (fields s' e f) := by
    rw [← hbits]
    rfl
  rw [h, unpack_fields] at hunpack
  rw [ofFloat_of_toBits hbits, value, hone, div_eq_mul_inv, ← zpow_neg]
  split_ifs at hunpack with _ _ hfirst
  · -- The smallest exponent: the fraction has no leading bit.
    obtain ⟨-, rfl, rfl⟩ := UnpackedFloat.finite.inj hunpack
    rw [hfirst, BitVec.toNat_zero, Nat.zero_mul, Nat.zero_add, units_of_lt f.isLt]
  · obtain ⟨-, rfl, rfl⟩ := UnpackedFloat.finite.inj hunpack
    obtain ⟨k, hk⟩ : ∃ k, e.toNat = k + 1 := by
      refine ⟨e.toNat - 1, ?_⟩
      have : e.toNat ≠ 0 := fun h => hfirst (BitVec.eq_of_toNat_eq h)
      omega
    have hexponent : (2 : ℚ) ^ ((e.toNat : ℤ) - 1075) = 2 ^ (k : ℤ) * 2 ^ (-1074 : ℤ) := by
      rw [← zpow_add₀ two_ne_zero, hk]
      congr 1
      push_cast
      ring
    rw [hexponent, hk, units_normal f.isLt, toNat_leading, Nat.cast_mul, Nat.cast_pow,
      Nat.cast_ofNat, zpow_natCast, mul_assoc]

/-- A minus sign keeps the magnitude of a number and changes its sign bit. -/
theorem neg_spec (h : ofFloat x ≤ infinite) :
    ofFloat (-x) = ofFloat x ∧ signBit (-x) = !signBit x := by
  obtain ⟨s, e, f, hbits⟩ := exists_toBits x
  rw [ofFloat_of_toBits hbits] at h
  have hneg : (-x).toBits.toBitVec = fields (-s) e f := by
    have : (-x).toBits.toBitVec = UnpackedFloat.pack Format.binary64
        (UnpackedFloat.unpack Format.binary64 x.toBits.toBitVec).neg := rfl
    rw [this, hbits, neg_unpack_fields, pack_unpack_fields _ _ _ (fraction_eq_zero h)]
  rw [ofFloat_of_toBits hbits, ofFloat_of_toBits hneg, signBit_of_toBits hbits,
    signBit_of_toBits hneg]
  refine ⟨rfl, ?_⟩
  cases s <;> rfl

/-- Without its sign, a number keeps its magnitude. -/
theorem abs_spec (h : ofFloat x ≤ infinite) :
    ofFloat x.abs = ofFloat x ∧ signBit x.abs = false := by
  obtain ⟨s, e, f, hbits⟩ := exists_toBits x
  rw [ofFloat_of_toBits hbits] at h
  have habs : x.abs.toBits.toBitVec = fields .positive e f := by
    have : x.abs.toBits.toBitVec = UnpackedFloat.pack Format.binary64
        (UnpackedFloat.unpack Format.binary64 x.toBits.toBitVec).abs := rfl
    have habs : (UnpackedFloat.unpack Format.binary64 (fields s e f)).abs =
        UnpackedFloat.unpack Format.binary64 (fields .positive e f) := by
      rw [unpack_fields, unpack_fields]
      split_ifs <;> rfl
    rw [this, hbits, habs, pack_unpack_fields _ _ _ (fraction_eq_zero h)]
  rw [ofFloat_of_toBits hbits, ofFloat_of_toBits habs, signBit_of_toBits habs]
  exact ⟨rfl, rfl⟩

/-- A magnitude up to infinity, made into a double without a sign. -/
theorem toFloat_spec (h : m ≤ infinite) :
    ofFloat (toFloat m) = m ∧ signBit (toFloat m) = false := by
  have hm : m < 2 ^ 63 := by
    rw [infinite, Nat.pow_eq] at h
    omega
  have hsplit : ∀ a b, a * 2 ^ 63 + b = m → a = 0 ∧ b = m := fun a b hab => by omega
  obtain ⟨s, e, f, hbits⟩ := exists_fields (UInt64.ofNat m).toBitVec
  obtain ⟨hsign, hmagnitude⟩ := hsplit s.toBitVec.toNat (e.toNat * 2 ^ 52 + f.toNat) (by
    rw [← toNat_fields, hbits, UInt64.toNat_toBitVec]
    exact UInt64.toNat_ofNat_of_lt' (by rw [UInt64.size]; omega))
  rw [← hmagnitude] at h
  have hfloat : (toFloat m).toBits.toBitVec = fields s e f := by
    have : (toFloat m).toBits.toBitVec = UnpackedFloat.pack Format.binary64
        (UnpackedFloat.unpack Format.binary64 (UInt64.ofNat m).toBitVec) := rfl
    rw [this, ← hbits, pack_unpack_fields _ _ _ (fraction_eq_zero h)]
  rw [ofFloat_of_toBits hfloat, signBit_of_toBits hfloat]
  refine ⟨hmagnitude, decide_eq_false fun h => ?_⟩
  rw [h] at hsign
  exact absurd hsign (by decide)

/-! ### Comparing doubles -/

/-- What a number without a sign is unpacked to, by its magnitude: a fraction with its leading bit
and an exponent, unless it is zero or infinity. -/
inductive Unpacks : ℕ → UnpackedFloat → Prop
  | infinity : Unpacks infinite (.infinity .positive)
  | zero : Unpacks 0 (.zero .positive)
  | finite {place r : ℕ} {exponent : ℤ} (hpos : 0 < r) (hr : r < 2 ^ 53)
      (hplace : place = 0 ∨ 2 ^ 52 ≤ r) (hfinite : place * 2 ^ 52 + r < infinite)
      (hexponent : exponent = place - 1074) :
      Unpacks (place * 2 ^ 52 + r) (.finite .positive r exponent hpos)

/-- Unpacking a number without a sign, by its fields. -/
theorem unpacks_fields {e : BitVec 11} {f : BitVec 52}
    (h : e.toNat * 2 ^ 52 + f.toNat ≤ infinite) :
    Unpacks (e.toNat * 2 ^ 52 + f.toNat)
      (UnpackedFloat.unpack Format.binary64 (fields .positive e f)) := by
  have hf := f.isLt
  have hfraction := fraction_eq_zero h
  rw [unpack_fields]
  split_ifs with hlast hzero hfirst hzero
  -- The largest exponent is left to infinity, because the fraction is that of a number.
  · have hm := (infinite_le_iff e f).mpr hlast
    rw [le_antisymm h hm]
    exact .infinity
  · exact absurd (hfraction hlast) hzero
  · rw [hfirst, hzero]
    exact .zero
  -- The smallest exponent has no leading bit to restore.
  · have hpos : 0 < f.toNat := by simpa [BitVec.toNat_pos, BitVec.pos_iff_ne_zero] using hzero
    rw [hfirst]
    exact .finite hpos (by omega) (.inl rfl) (by rw [infinite, Nat.pow_eq]; simp; omega) rfl
  · have hm := mt (infinite_le_iff e f).mp hlast
    obtain ⟨place, hplace⟩ : ∃ place, e.toNat = place + 1 :=
      Nat.exists_eq_succ_of_ne_zero fun hzero => hfirst (BitVec.eq_of_toNat_eq hzero)
    have hsum : e.toNat * 2 ^ 52 + f.toNat = place * 2 ^ 52 + (1#1 ++ f).toNat := by
      rw [toNat_leading]
      omega
    have hleading := toNat_leading f
    rw [not_le] at hm
    rw [hsum] at hm ⊢
    exact .finite _ (by omega) (.inr (by omega)) hm (by omega)

/-- Fractions with their leading bits are ordered as the magnitudes are, the exponents first. -/
theorem compare_then_compare {place place' r r' : ℕ} (hr : r < 2 ^ 53) (hr' : r' < 2 ^ 53)
    (hplace : place = 0 ∨ 2 ^ 52 ≤ r) (hplace' : place' = 0 ∨ 2 ^ 52 ≤ r') :
    (compare (place - 1074 : ℤ) (place' - 1074 : ℤ)).then (compare r r') =
      compare (place * 2 ^ 52 + r) (place' * 2 ^ 52 + r') := by
  rcases Nat.lt_trichotomy place place' with hlt | rfl | hgt
  · have hexponent : (place - 1074 : ℤ) < place' - 1074 := by omega
    have hsum : place * 2 ^ 52 + r < place' * 2 ^ 52 + r' := by omega
    rw [compare_lt_iff_lt.mpr hexponent, compare_lt_iff_lt.mpr hsum]
    rfl
  · rw [compare_eq_iff_eq.mpr rfl, Ordering.eq_then]
    simp only [compare, compareOfLessAndEq, Nat.add_lt_add_iff_left, Nat.add_left_cancel_iff]
  · have hexponent : (place' - 1074 : ℤ) < place - 1074 := by omega
    have hsum : place' * 2 ^ 52 + r' < place * 2 ^ 52 + r := by omega
    rw [compare_gt_iff_gt.mpr hexponent, compare_gt_iff_gt.mpr hsum]
    rfl

/-- Numbers without a sign are ordered as their magnitudes are. -/
theorem Unpacks.compare_eq {m n : ℕ} {a b : UnpackedFloat} (ha : Unpacks m a) (hb : Unpacks n b) :
    a.compare b = some (compare m n) := by
  have hinfinite : 0 < infinite := by decide
  have hself : ∀ m : ℕ, compare m m = .eq := fun m => compare_eq_iff_eq.mpr rfl
  cases ha with
  | infinity =>
    cases hb with
    | infinity => rw [hself]; rfl
    | zero => exact congrArg some (compare_gt_iff_gt.mpr hinfinite).symm
    | finite _ _ _ hfinite => exact congrArg some (compare_gt_iff_gt.mpr hfinite).symm
  | zero =>
    cases hb with
    | infinity => exact congrArg some (compare_lt_iff_lt.mpr hinfinite).symm
    | zero => rfl
    | finite hpos => exact congrArg some (compare_lt_iff_lt.mpr (Nat.add_pos_right _ hpos)).symm
  | finite hpos hr hplace hfinite hexponent =>
    cases hb with
    | infinity => exact congrArg some (compare_lt_iff_lt.mpr hfinite).symm
    | zero => exact congrArg some (compare_gt_iff_gt.mpr (Nat.add_pos_right _ hpos)).symm
    | finite hpos' hr' hplace' hfinite' hexponent' =>
      subst hexponent hexponent'
      rw [← compare_then_compare hr hr' hplace hplace']
      rfl

theorem unpacks_ofFloat (hx : ofFloat x ≤ infinite) (hsign : signBit x = false) :
    Unpacks (ofFloat x) x.toModel.unpack := by
  obtain ⟨s, e, f, hbits⟩ := exists_toBits x
  rw [signBit_of_toBits hbits] at hsign
  rw [ofFloat_of_toBits hbits] at hx ⊢
  obtain rfl : s = .positive := by
    cases s
    · cases hsign
    · rfl
  have hunpack := unpacks_fields hx
  rwa [← hbits] at hunpack

/-- Doubles without a sign are compared by their magnitudes. -/
theorem le_iff_ofFloat (hx : ofFloat x ≤ infinite) (hy : ofFloat y ≤ infinite)
    (hxsign : signBit x = false) (hysign : signBit y = false) : x ≤ y ↔ ofFloat x ≤ ofFloat y := by
  have hcompare := (unpacks_ofFloat hx hxsign).compare_eq (unpacks_ofFloat hy hysign)
  have hle : x ≤ y ↔ (x.toModel.unpack.compare y.toModel.unpack).any (·.isLE) = true := by
    show decide (x.toModel.unpack.le y.toModel.unpack = true) = true ↔ _
    rw [decide_eq_true_eq]
    rfl
  rw [hle, hcompare, Option.any_some]
  exact Nat.isLE_compare

theorem lt_iff_ofFloat (hx : ofFloat x ≤ infinite) (hy : ofFloat y ≤ infinite)
    (hxsign : signBit x = false) (hysign : signBit y = false) : x < y ↔ ofFloat x < ofFloat y := by
  have hcompare := (unpacks_ofFloat hx hxsign).compare_eq (unpacks_ofFloat hy hysign)
  have hlt : x < y ↔ (x.toModel.unpack.compare y.toModel.unpack == some .lt) = true := by
    show decide (x.toModel.unpack.lt y.toModel.unpack = true) = true ↔ _
    rw [decide_eq_true_eq]
    rfl
  rw [hlt, hcompare, beq_iff_eq, Option.some.injEq]
  exact compare_lt_iff_lt

/-- Both zeros are equal to zero, and nothing else is. -/
theorem beq_zero_iff : (x == 0) = true ↔ ofFloat x = 0 := by
  obtain ⟨s, e, f, hbits⟩ := exists_toBits x
  have hbeq : (x == 0) =
      ((UnpackedFloat.unpack Format.binary64 (fields s e f)).compare (.zero .positive) ==
        some .eq) := by
    rw [← hbits]
    rfl
  have hzero : e.toNat * 2 ^ 52 + f.toNat = 0 ↔ e = 0#11 ∧ f = 0#52 := by
    have he : e = 0#11 ↔ e.toNat = 0 := BitVec.toNat_inj.symm
    have hf : f = 0#52 ↔ f.toNat = 0 := BitVec.toNat_inj.symm
    rw [he, hf]
    omega
  rw [hbeq, beq_iff_eq, ofFloat_of_toBits hbits, unpack_fields, hzero]
  cases s <;> split_ifs <;> simp_all [UnpackedFloat.compare]

end Doubles

end Calculator.Magnitude
