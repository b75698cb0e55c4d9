/-
**Rounding.** What is nearest to a number that is a double.

* A ratio is rounded by its value, however it is written: `nearestMagnitude_congr`.
* `nearestMagnitude_units`: a ratio that is a double is rounded to that double. Below `2 ^ 52` units
  the pattern is the number of units; beyond, the units are a significand of 53 bits that is
  shifted, and the shift is read off their logarithm.
* `shortest_readsBack`: the shortest decimal of a number is read as the number. Every decimal that
  the search takes has been read back, and at its end there is one that is the number exactly.
-/

import Lox.Number.Layout

namespace Lox

/-! ### Quotients -/

theorem roundDiv_cases (num den : Nat) :
    roundDiv num den = num / den ∨ roundDiv num den = num / den + 1 := by
  unfold roundDiv
  simp only
  split
  · exact .inl rfl
  split
  · exact .inr rfl
  · omega

theorem roundDiv_mul_right {factor : Nat} (positive : 0 < factor) (num den : Nat) :
    roundDiv (num * factor) (den * factor) = roundDiv num den := by
  unfold roundDiv
  simp only
  rw [Nat.mul_div_mul_right _ _ positive, Nat.mul_mod_mul_right, ← Nat.mul_assoc]
  simp only [Nat.mul_lt_mul_right positive]

theorem roundDiv_mul_self {den : Nat} (positive : 0 < den) (quotient : Nat) :
    roundDiv (quotient * den) den = quotient := by
  unfold roundDiv
  simp only
  rw [Nat.mul_mod_left, Nat.mul_div_cancel _ positive, Nat.mul_zero, if_pos positive]

namespace Number

/-! ### The sign -/

/-- The number without its sign. -/
def absolute (x : Number) : Number :=
  ⟨x.magnitude⟩

theorem magnitude_toNat (x : Number) : x.magnitude.toNat = x.bits.toNat % signBit.toNat := by
  rw [magnitude, UInt64.toNat_and]
  exact Nat.and_two_pow_sub_one_eq_mod x.bits.toNat 63

theorem isNegative_iff (x : Number) : x.isNegative = true ↔ signBit.toNat ≤ x.bits.toNat := by
  rw [isNegative, decide_eq_true_iff, UInt64.le_iff_toNat_le]

theorem absolute_of_positive {x : Number} (positive : x.isNegative = false) : x.absolute = x := by
  have small : ¬ signBit.toNat ≤ x.bits.toNat := by
    rw [← isNegative_iff, positive]
    exact Bool.false_ne_true
  have same : x.magnitude = x.bits := by
    apply UInt64.toNat_inj.mp
    rw [magnitude_toNat, Nat.mod_eq_of_lt (Nat.lt_of_not_le small)]
  rw [absolute, same]

/-- On patterns without a sign the sign is added by setting the highest bit. -/
theorem toNat_xor_signBit {pattern : UInt64} (small : pattern.toNat < signBit.toNat) :
    (pattern ^^^ signBit).toNat = signBit.toNat + pattern.toNat := by
  have highest : signBit.toNat = 2 ^ 63 := rfl
  rw [highest] at small
  have joined : 2 ^ 63 + pattern.toNat = 2 ^ 63 ||| pattern.toNat := by
    have split := Nat.two_pow_add_eq_or_of_lt small 1
    rwa [Nat.mul_one] at split
  rw [UInt64.toNat_xor, highest, joined]
  apply Nat.eq_of_testBit_eq
  intro i
  rw [Nat.testBit_xor, Nat.testBit_or, Nat.testBit_two_pow]
  by_cases last : 63 = i
  · subst last
    simp [Nat.testBit_lt_two_pow small]
  · simp [last]

theorem negate_absolute_of_negative {x : Number} (negative : x.isNegative = true) :
    x.absolute.negate = x := by
  have large := (isNegative_iff x).mp negative
  have bound : x.bits.toNat < 2 ^ 64 := x.bits.toNat_lt
  have pattern := magnitude_toNat x
  have small : x.magnitude.toNat < signBit.toNat := by
    rw [pattern]
    exact Nat.mod_lt _ (by decide)
  have same : x.magnitude ^^^ signBit = x.bits := by
    apply UInt64.toNat_inj.mp
    have highest : signBit.toNat = 2 ^ 63 := rfl
    rw [toNat_xor_signBit small, pattern]
    rw [highest] at large ⊢
    omega
  rw [absolute, negate, same]

/-! ### Ratios -/

theorem unitsPerOne_pos : 0 < unitsPerOne := by
  unfold unitsPerOne
  generalize 1074 = exponent
  exact Nat.pow_pos (by decide)

theorem nearestMagnitude_mul_right {factor : Nat} (positive : 0 < factor) (num den : Nat) :
    nearestMagnitude (num * factor) (den * factor) = nearestMagnitude num den := by
  unfold nearestMagnitude
  simp only
  rw [Nat.mul_right_comm num factor, Nat.mul_div_mul_right _ _ positive,
    Nat.mul_right_comm den factor, roundDiv_mul_right positive]

/-- Equal ratios have the same double nearest to them. -/
theorem nearestMagnitude_congr {num den other under : Nat} (positive : 0 < den)
    (beneath : 0 < under) (same : num * under = other * den) :
    nearestMagnitude num den = nearestMagnitude other under := by
  rw [← nearestMagnitude_mul_right beneath, same, Nat.mul_comm den under,
    nearestMagnitude_mul_right positive]

theorem ofRatio_congr {num den other under : Nat} (positive : 0 < den) (beneath : 0 < under)
    (same : num * under = other * den) : ofRatio num den = ofRatio other under := by
  rw [ofRatio, ofRatio, nearestMagnitude_congr positive beneath same]

/-- A finite number: neither a NaN nor an infinity. -/
def isFinite (x : Number) : Bool :=
  !x.isNaN && !x.isInfinite

theorem magnitude_lt_of_finite {x : Number} (finite : x.isFinite = true) :
    x.magnitude.toNat < infiniteMagnitude.toNat := by
  rw [isFinite, Bool.and_eq_true, Bool.not_eq_true', Bool.not_eq_true', isNaN, isInfinite,
    decide_eq_false_iff_not, beq_eq_false_iff_ne] at finite
  have below : ¬ infiniteMagnitude.toNat < x.magnitude.toNat := finite.1
  have apart : x.magnitude.toNat ≠ infiniteMagnitude.toNat :=
    fun same => finite.2 (UInt64.toNat_inj.mp same)
  omega

/-- The shift that rounding chooses for the units of a number is its scale. -/
theorem log2_units (x : Number) : Nat.log2 x.units - 52 = x.scale := by
  unfold units significand scale
  simp only
  by_cases subnormal : x.magnitude.toNat < binade
  · rw [if_pos subnormal, Nat.div_eq_of_lt subnormal]
    show Nat.log2 (x.magnitude.toNat * 1) - 52 = 0
    by_cases zero : x.magnitude.toNat = 0
    · rw [zero]
      rfl
    · have short := (Nat.log2_lt zero).mpr subnormal
      rw [Nat.mul_one]
      omega
  · have positive : 0 < binade := Nat.pow_pos (by decide)
    rw [if_neg subnormal]
    generalize x.magnitude.toNat / binade - 1 = exponent
    have low : binade ≤ binade + x.magnitude.toNat % binade := Nat.le_add_right _ _
    have high : binade + x.magnitude.toNat % binade < 2 * binade := by
      have rest := Nat.mod_lt x.magnitude.toNat positive
      omega
    generalize binade + x.magnitude.toNat % binade = significand at low high
    have lower : 2 ^ (52 + exponent) ≤ significand * 2 ^ exponent := by
      rw [Nat.pow_add]
      exact Nat.mul_le_mul_right _ low
    have upper : significand * 2 ^ exponent < 2 ^ (52 + exponent + 1) := by
      rw [Nat.add_right_comm, Nat.pow_add]
      exact Nat.mul_lt_mul_of_pos_right high (Nat.pow_pos (by decide))
    have nonzero : significand * 2 ^ exponent ≠ 0 :=
      Nat.ne_of_gt (Nat.lt_of_lt_of_le (Nat.pow_pos (by decide)) lower)
    have log := (Nat.log2_eq_iff nonzero).mpr ⟨lower, upper⟩
    show Nat.log2 (significand * 2 ^ exponent) - 52 = exponent
    rw [log]
    exact Nat.add_sub_cancel_left 52 exponent

/-- The pattern is made of the scale and the significand. -/
theorem scale_significand (x : Number) : x.scale * binade + x.significand = x.magnitude.toNat := by
  unfold scale significand
  simp only
  by_cases subnormal : x.magnitude.toNat < binade
  · rw [if_pos subnormal, Nat.div_eq_of_lt subnormal]
    exact Nat.zero_add _
  · have positive : 0 < binade := Nat.pow_pos (by decide)
    have whole := Nat.div_add_mod' x.magnitude.toNat binade
    have leading : 1 ≤ x.magnitude.toNat / binade :=
      (Nat.one_le_div_iff positive).mpr (Nat.le_of_not_lt subnormal)
    have one := Nat.mul_le_mul_right binade leading
    rw [if_neg subnormal, Nat.sub_mul]
    omega

/-- **A ratio that is a double is rounded to that double.** -/
theorem nearestMagnitude_units {x : Number} (finite : x.isFinite = true) :
    nearestMagnitude x.units unitsPerOne = x.magnitude.toNat := by
  have bound := magnitude_lt_of_finite finite
  have power : 0 < Nat.pow 2 x.scale := Nat.pow_pos (by decide)
  unfold nearestMagnitude
  simp only
  rw [Nat.mul_div_cancel _ unitsPerOne_pos, log2_units, Nat.mul_comm unitsPerOne,
    roundDiv_mul_right unitsPerOne_pos, units, roundDiv_mul_self power, scale_significand]
  exact Nat.min_eq_right (Nat.le_of_lt bound)

theorem ofRatio_eq_absolute {x : Number} {num den : Nat}
    (same : nearestMagnitude num den = x.magnitude.toNat) : ofRatio num den = x.absolute := by
  rw [ofRatio, same, absolute]
  exact congrArg Number.mk UInt64.ofNat_toNat

end Number

/-! ### Decimals -/

namespace Decimal

theorem denominator_pos (d : Decimal) : 0 < d.denominator :=
  Nat.pow_pos (by decide)

/-- Moving a zero from the digits into the exponent leaves the ratio as it is. -/
theorem ratio_strip {digits : Nat} (round : digits % 10 = 0) (exponent : Int) :
    (Decimal.mk (digits / 10) (exponent + 1)).numerator * (Decimal.mk digits exponent).denominator =
      (Decimal.mk digits exponent).numerator *
        (Decimal.mk (digits / 10) (exponent + 1)).denominator := by
  have tens : digits = 10 * (digits / 10) := by omega
  generalize digits / 10 = front at tens
  subst tens
  unfold numerator denominator
  simp only [Nat.pow_eq]
  by_cases negative : exponent < 0
  · have left : (exponent + 1).toNat = 0 := by omega
    have right : exponent.toNat = 0 := by omega
    have step : (-exponent).toNat = (-(exponent + 1)).toNat + 1 := by omega
    rw [left, right, step, Nat.pow_succ]
    generalize 10 ^ (-(exponent + 1)).toNat = power
    rw [Nat.pow_zero, Nat.mul_one, Nat.mul_one, Nat.mul_comm power, ← Nat.mul_assoc,
      Nat.mul_comm front]
  · have left : (-(exponent + 1)).toNat = 0 := by omega
    have right : (-exponent).toNat = 0 := by omega
    have step : (exponent + 1).toNat = exponent.toNat + 1 := by omega
    rw [left, right, step, Nat.pow_succ]
    generalize 10 ^ exponent.toNat = power
    rw [Nat.pow_zero, Nat.mul_one, Nat.mul_one, Nat.mul_comm power, ← Nat.mul_assoc,
      Nat.mul_comm front]

end Decimal

namespace Number

theorem readsBack_stripZeros {magnitude : Nat} {d : Decimal} (fuel : Nat)
    (reads : readsBack magnitude d = true) : readsBack magnitude (d.stripZeros fuel) = true := by
  fun_induction Decimal.stripZeros fuel d with
  | case1 => exact reads
  | case2 fuel d round ih =>
      apply ih
      rw [readsBack] at reads ⊢
      rwa [nearestMagnitude_congr (Decimal.denominator_pos _) d.denominator_pos
        (Decimal.ratio_strip round.2 d.exponent)]
  | case3 => exact reads

/-- The neighbour that is taken reads back: also the rounded one of two that do, since it is one of
them. -/
theorem reads_nearer {reads : Decimal → Bool} {num den : Nat} {exponent : Int} {d : Decimal}
    (taken : nearer reads num den exponent = some d) : reads d = true := by
  unfold nearer at taken
  simp only at taken
  split at taken <;> cases taken
  case h_1 low high =>
    rcases roundDiv_cases num den with same | same
    · rw [same]
      exact low
    · rw [same]
      exact high
  case h_2 low high => exact low
  case h_3 low high => exact high

/-- A number over a power of two has as many decimal places as the power says. -/
theorem readsBack_places (units places : Nat) :
    readsBack (nearestMagnitude units (Nat.pow 2 places))
      ⟨units * Nat.pow 5 places, -(places : Int)⟩ = true := by
  have above : (-(places : Int)).toNat = 0 := by omega
  have below : (-(-(places : Int))).toNat = places := by omega
  have split : Nat.pow 10 places = Nat.pow 2 places * Nat.pow 5 places := Nat.mul_pow 2 5 places
  have power : 0 < Nat.pow 5 places := Nat.pow_pos (by decide)
  rw [readsBack, Decimal.numerator, Decimal.denominator, above, below, split]
  show (nearestMagnitude (units * Nat.pow 5 places * 1) _ == _) = true
  rw [Nat.mul_one, nearestMagnitude_mul_right power]
  exact beq_self_eq_true _

/-- All digits of a number are enough. -/
theorem readsBack_exactDecimal {x : Number} (finite : x.isFinite = true) :
    readsBack x.magnitude.toNat (exactDecimal x.units) = true := by
  have least : (-1074 : Int) = -((1074 : Nat) : Int) := rfl
  rw [← nearestMagnitude_units finite]
  unfold exactDecimal unitsPerOne
  rw [least]
  generalize 1074 = places
  exact readsBack_places x.units places

/-- What holds of all that is attempted and of the last resort holds of what is found. -/
theorem firstFound_induction (holds : Decimal → Prop) {attempt : Nat → Option Decimal}
    {lastResort : Decimal} (each : ∀ count d, attempt count = some d → holds d)
    (last : holds lastResort) (fuel count : Nat) :
    holds (firstFound attempt lastResort fuel count) := by
  fun_induction firstFound attempt lastResort fuel count with
  | case1 => exact last
  | case2 fuel count d found => exact each count d found
  | case3 fuel count none ih => exact ih

/-- **The shortest decimal of a number is read as the number.** -/
theorem shortest_readsBack {x : Number} (finite : x.isFinite = true) :
    nearestMagnitude x.shortest.numerator x.shortest.denominator = x.magnitude.toNat := by
  have reads : readsBack x.magnitude.toNat x.shortest = true := by
    unfold shortest
    apply readsBack_stripZeros
    apply firstFound_induction (fun d => readsBack x.magnitude.toNat d = true)
    · intro count d taken
      exact reads_nearer taken
    · exact readsBack_exactDecimal finite
  exact beq_iff_eq.mp reads

end Number

end Lox
