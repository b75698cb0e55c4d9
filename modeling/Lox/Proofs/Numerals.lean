/-
**Numerals.** The texts of numbers as numerals.

* `IsNumeral`: characters that are digits, with a point and more digits behind them or without, and
  that are read as a given number.
* `layout_numeral`: the digits of a decimal, laid out with a point, are a numeral for what the
  decimal is nearest to. The point stands in front of the digits, behind them or among them.
* `toText_numeral`: the text of a finite number without an exponent is a numeral for the number
  without its sign, behind a minus if there is one.
-/

import Lox.Proofs.Rounding
import Lox.Segment

namespace Lox

open Segment (isDigit)

namespace Number

/-! ### Digits -/

theorem isDigit_of_library {c : Char} (digit : c.isDigit = true) : isDigit c = true := by
  rw [Char.isDigit, Bool.and_eq_true, decide_eq_true_iff, decide_eq_true_iff] at digit
  rw [isDigit, Bool.and_eq_true, decide_eq_true_iff, decide_eq_true_iff]
  exact digit

theorem toList_toString (n : Nat) : (toString n).toList = Nat.toDigits 10 n := by
  rw [Nat.toString_eq_ofList_toDigits, String.toList_ofList]

theorem isDigit_of_mem_toString {n : Nat} {c : Char} (member : c ∈ (toString n).toList) :
    isDigit c = true := by
  rw [toList_toString] at member
  exact isDigit_of_library (Nat.isDigit_of_mem_toDigits (by decide) (by decide) member)

theorem toString_ne_nil (n : Nat) : (toString n).toList ≠ [] := by
  rw [toList_toString]
  exact Nat.toDigits_ne_nil

theorem digitsValue_eq (digits : List Char) : digitsValue digits = Nat.ofDigitChars 10 digits 0 :=
  rfl

theorem digitsValue_toString (n : Nat) : digitsValue (toString n).toList = n := by
  rw [digitsValue_eq, toList_toString]
  exact Nat.ofDigitChars_ten_toDigits

/-- Zeros in front of digits do not count. -/
theorem digitsValue_zeros (count : Nat) (digits : List Char) :
    digitsValue (List.replicate count '0' ++ digits) = digitsValue digits := by
  rw [digitsValue_eq, Nat.ofDigitChars_append, Nat.ofDigitChars_replicate_zero, Nat.mul_zero]
  rfl

/-- Zeros behind digits multiply them by powers of ten. -/
theorem digitsValue_append_zeros (digits : List Char) (count : Nat) :
    digitsValue (digits ++ List.replicate count '0') = digitsValue digits * Nat.pow 10 count := by
  rw [digitsValue_eq, Nat.ofDigitChars_append, Nat.ofDigitChars_replicate_zero, Nat.mul_comm]
  rfl

end Number

open Number

/-! ### Numerals -/

/-- The digits of a fraction, with a point in front of them if there are any. -/
def pointed (fraction : List Char) : List Char :=
  if fraction = [] then [] else '.' :: fraction

/-- Characters that are a numeral, and what is read from it. -/
def IsNumeral (chars : List Char) (value : Number) : Prop :=
  ∃ whole fraction : List Char, whole ≠ [] ∧ (∀ c ∈ whole, isDigit c = true) ∧
    (∀ c ∈ fraction, isDigit c = true) ∧ chars = whole ++ pointed fraction ∧
    ofDecimal whole fraction = value

theorem forall_digits_replicate (count : Nat) :
    ∀ c ∈ List.replicate count '0', isDigit c = true := by
  intro c member
  rw [(List.mem_replicate.mp member).2]
  decide

theorem forall_digits_append {front back : List Char} (first : ∀ c ∈ front, isDigit c = true)
    (second : ∀ c ∈ back, isDigit c = true) : ∀ c ∈ front ++ back, isDigit c = true := by
  intro c member
  exact (List.mem_append.mp member).elim (first c) (second c)

/-- Digits are a numeral. -/
theorem isNumeral_toString (n : Nat) : IsNumeral (toString n).toList (ofRatio n 1) := by
  refine ⟨(toString n).toList, [], toString_ne_nil n, fun c => isDigit_of_mem_toString,
    List.forall_mem_nil _, (List.append_nil _).symm, ?_⟩
  rw [ofDecimal, List.append_nil, digitsValue_toString]
  rfl

namespace Decimal

variable (d : Decimal)

theorem digit_of_mem_digitChars : ∀ c ∈ d.digitChars, isDigit c = true :=
  fun _ => isDigit_of_mem_toString

theorem length_digitChars_pos : 0 < d.digitChars.length :=
  List.length_pos_iff.mpr (toString_ne_nil d.digits)

/-- The point stands in front of the digits. -/
theorem ofDecimal_small (small : d.leadingExponent < 0) :
    ofDecimal ['0'] (List.replicate (-d.leadingExponent - 1).toNat '0' ++ d.digitChars) =
      ofRatio d.numerator d.denominator := by
  have places : (-d.leadingExponent - 1).toNat + d.digitChars.length = (-d.exponent).toNat := by
    have positive := d.length_digitChars_pos
    rw [leadingExponent] at small ⊢
    omega
  have whole : d.exponent.toNat = 0 := by
    have positive := d.length_digitChars_pos
    rw [leadingExponent] at small
    omega
  rw [ofDecimal, ← List.append_assoc, List.singleton_append, ← List.replicate_succ,
    digitsValue_zeros, List.length_append, List.length_replicate, places, numerator, whole,
    digitChars, digitsValue_toString]
  exact congrArg (ofRatio · _) (Nat.mul_one _).symm

/-- The point stands behind the digits and zeros. -/
theorem ofDecimal_large (large : d.digitChars.length ≤ d.leadingExponent.toNat + 1)
    (positive : 0 ≤ d.leadingExponent) :
    ofDecimal (d.digitChars ++
        List.replicate (d.leadingExponent.toNat + 1 - d.digitChars.length) '0') ['0'] =
      ofRatio d.numerator d.denominator := by
  have places : d.leadingExponent.toNat + 1 - d.digitChars.length = d.exponent.toNat := by
    rw [leadingExponent] at large positive ⊢
    omega
  have whole : (-d.exponent).toNat = 0 := by
    rw [leadingExponent] at large positive
    omega
  rw [ofDecimal, List.append_assoc, ← List.replicate_succ', digitsValue_append_zeros, places,
    digitChars, digitsValue_toString, numerator, denominator, whole]
  refine ofRatio_congr (Nat.pow_pos (by decide)) (by decide) ?_
  show d.digits * (Nat.pow 10 d.exponent.toNat * 10) * 1 = _
  rw [Nat.mul_one, Nat.mul_assoc]
  rfl

/-- The point stands among the digits. -/
theorem ofDecimal_between (between : d.leadingExponent.toNat + 1 < d.digitChars.length)
    (positive : 0 ≤ d.leadingExponent) :
    ofDecimal (d.digitChars.take (d.leadingExponent.toNat + 1))
        (d.digitChars.drop (d.leadingExponent.toNat + 1)) =
      ofRatio d.numerator d.denominator := by
  have places : d.digitChars.length - (d.leadingExponent.toNat + 1) = (-d.exponent).toNat := by
    rw [leadingExponent] at between positive ⊢
    omega
  have whole : d.exponent.toNat = 0 := by
    rw [leadingExponent] at between positive
    omega
  rw [ofDecimal, List.take_append_drop, List.length_drop, places, digitChars,
    digitsValue_toString, numerator, whole]
  exact congrArg (ofRatio · _) (Nat.mul_one _).symm

/-- **A decimal that is laid out without an exponent** is a numeral for the double nearest to it. -/
theorem positional_numeral :
    IsNumeral (positional d.digitChars d.leadingExponent) (ofRatio d.numerator d.denominator) := by
  have digits := d.digit_of_mem_digitChars
  unfold positional
  simp only
  by_cases small : d.leadingExponent < 0
  · rw [if_pos small]
    have some : List.replicate (-d.leadingExponent - 1).toNat '0' ++ d.digitChars ≠ [] :=
      List.append_ne_nil_of_right_ne_nil _ (toString_ne_nil d.digits)
    refine ⟨['0'], _, List.cons_ne_nil _ _, ?_,
      forall_digits_append (forall_digits_replicate _) digits, ?_, d.ofDecimal_small small⟩
    · exact forall_digits_replicate 1
    · rw [pointed, if_neg some]
      rfl
  · have positive : 0 ≤ d.leadingExponent := Int.not_lt.mp small
    rw [if_neg small]
    by_cases large : d.digitChars.length ≤ d.leadingExponent.toNat + 1
    · rw [if_pos large]
      refine ⟨_, ['0'], ?_, forall_digits_append digits (forall_digits_replicate _),
        forall_digits_replicate 1, rfl, d.ofDecimal_large large positive⟩
      exact List.append_ne_nil_of_left_ne_nil (toString_ne_nil d.digits) _
    · have between := Nat.lt_of_not_le large
      have some : d.digitChars.drop (d.leadingExponent.toNat + 1) ≠ [] := by
        rw [Ne, List.drop_eq_nil_iff]
        exact large
      rw [if_neg large]
      refine ⟨_, _, ?_, fun c member => digits c (List.mem_of_mem_take member),
        fun c member => digits c (List.mem_of_mem_drop member), ?_,
        d.ofDecimal_between between positive⟩
      · rw [Ne, List.take_eq_nil_iff, not_or]
        exact ⟨Nat.succ_ne_zero _, toString_ne_nil d.digits⟩
      · rw [pointed, if_neg some]

theorem mem_scientific (digits : List Char) (leading : Int) : 'e' ∈ scientific digits leading := by
  have mark : 'e' ∈ exponentPart leading := List.mem_append_left _ (List.mem_cons_self ..)
  unfold scientific
  split
  · exact List.mem_cons_of_mem _ (List.mem_append_right _ mark)
  · exact List.mem_append_right _ mark

/-- A text without an exponent is laid out with a point. -/
theorem layout_numeral (plain : 'e' ∉ d.layout) :
    IsNumeral d.layout (ofRatio d.numerator d.denominator) := by
  unfold layout at plain ⊢
  by_cases position : isPositional d.leadingExponent = true
  · rw [if_pos position]
    exact d.positional_numeral
  · rw [if_neg position] at plain
    exact absurd (mem_scientific _ _) plain

end Decimal

namespace Number

/-! ### Texts -/

/-- The characters of a sign. -/
def signChars (x : Number) : List Char :=
  if x.isNegative then ['-'] else []

theorem toList_signed (x : Number) (text : String) :
    (x.signed text).toList = x.signChars ++ text.toList := by
  unfold signed signChars
  split
  · exact String.toList_append
  · rfl

/-- A whole number is its whole part. -/
theorem ofRatio_wholePart {x : Number} (finite : x.isFinite = true) (whole : x.isWhole = true) :
    ofRatio x.wholePart 1 = x.absolute := by
  have units : x.wholePart * unitsPerOne = x.units :=
    Nat.div_mul_cancel (Nat.dvd_of_mod_eq_zero (beq_iff_eq.mp whole))
  apply ofRatio_eq_absolute
  rw [← nearestMagnitude_mul_right unitsPerOne_pos, units, Nat.one_mul,
    nearestMagnitude_units finite]

theorem isPlain_of_isZero {x : Number} (zero : x.isZero = true) : x.isPlain = true := by
  have none : x.magnitude = 0 := beq_iff_eq.mp zero
  have units : x.units = 0 := by
    rw [Number.units, significand, none]
    exact Nat.zero_mul _
  rw [isPlain, isWhole, wholePart, units, Nat.zero_mod, Nat.zero_div]
  decide

/-- **The text of a finite number without an exponent** is a numeral for the number without its
sign, behind the sign. -/
theorem toText_numeral {x : Number} (finite : x.isFinite = true)
    (plain : 'e' ∉ x.toText.toList) :
    ∃ chars, x.toText.toList = x.signChars ++ chars ∧ IsNumeral chars x.absolute := by
  have proper : x.isNaN = false ∧ x.isInfinite = false := by
    rwa [isFinite, Bool.and_eq_true, Bool.not_eq_true', Bool.not_eq_true'] at finite
  unfold toText at plain ⊢
  rw [proper.1, proper.2] at plain ⊢
  simp only [Bool.false_eq_true, if_false] at plain ⊢
  by_cases whole : x.isPlain = true
  · rw [if_pos whole, toList_signed]
    refine ⟨_, rfl, ?_⟩
    rw [← ofRatio_wholePart finite ((Bool.and_eq_true _ _).mp whole).1]
    exact isNumeral_toString _
  · have nonzero : ¬ x.isZero = true := fun zero => whole (isPlain_of_isZero zero)
    rw [if_neg whole] at plain ⊢
    rw [toLiteral, proper.1, proper.2] at plain ⊢
    simp only [Bool.false_eq_true, if_false, if_neg nonzero] at plain ⊢
    rw [toList_signed, String.toList_ofList] at plain ⊢
    refine ⟨_, rfl, ?_⟩
    have numeral := x.shortest.layout_numeral fun member =>
      plain (List.mem_append_right _ member)
    rwa [ofRatio_eq_absolute (shortest_readsBack finite)] at numeral

end Number

end Lox
