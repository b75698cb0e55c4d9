/-
**Spellings.** Different numbers are written differently.

* `IsWritten`: characters that are a numeral, or digits with an exponent behind them, and the number
  that is read from them. `IsWritten.unique`: at most one number is read from the same characters.
* `Spells` is what the two ways to write numbers have in common, that of literals and that of
  programs: words for the NaNs and the infinities, and for the other numbers something written that
  reads back, behind the sign. `Spells.eq_iff`: so a text belongs to one number, or to all NaNs.
* `text_number_iff`: that is so for what programs print.
-/

import Lox.Proofs.PrintedNumbers
import Lox.Value

namespace Lox

open Segment Number

/-- Where two texts agree, they do so up to the first character that fails a test. -/
theorem cancel_span (test : Char → Bool) {front front' back back' : List Char}
    (all : ∀ c ∈ front, test c = true) (all' : ∀ c ∈ front', test c = true)
    (stop : ∀ c ∈ back.head?, test c = false) (stop' : ∀ c ∈ back'.head?, test c = false)
    (same : front ++ back = front' ++ back') : front = front' ∧ back = back' := by
  have first := splitWhile_append all stop
  have second := splitWhile_append all' stop'
  rw [same, second] at first
  obtain ⟨rfl, rfl⟩ := Prod.mk.inj first
  exact ⟨rfl, rfl⟩

/-! ### Exponents -/

theorem pointed_injective {fraction other : List Char} (same : pointed fraction = pointed other) :
    fraction = other := by
  unfold pointed at same
  split at same <;> split at same
  · rename_i none none'
    rw [none, none']
  · cases same
  · cases same
  · exact (List.cons.inj same).2

/-- A numeral is made of digits and a point. -/
theorem not_mem_pointed {c : Char} {fraction : List Char}
    (digits : ∀ c ∈ fraction, isDigit c = true) (other : isDigit c = false) (point : c ≠ '.') :
    c ∉ pointed fraction := by
  unfold pointed
  split
  · exact List.not_mem_nil
  · intro member
    rcases List.mem_cons.mp member with same | later
    · exact point same
    · rw [digits _ later] at other
      cases other

theorem IsNumeral.not_mem {c : Char} {chars : List Char} {value : Number}
    (numeral : IsNumeral chars value) (other : isDigit c = false) (point : c ≠ '.') :
    c ∉ chars := by
  obtain ⟨whole, fraction, _, digits, places, rfl, _⟩ := numeral
  intro member
  rcases List.mem_append.mp member with front | back
  · rw [digits _ front] at other
    cases other
  · exact not_mem_pointed places other point back

namespace Decimal

/-- The digits of an exponent, filled up with zeros, have its absolute value. -/
theorem exponentPart_eq (leading : Int) :
    ∃ digits, exponentPart leading = 'e' :: (if leading < 0 then '-' else '+') :: digits ∧
      digitsValue digits = leading.natAbs ∧ ∀ c ∈ digits, isDigit c = true := by
  let digits := (toString leading.natAbs).toList
  refine ⟨List.replicate (2 - digits.length) '0' ++ digits, rfl, ?_, ?_⟩
  · rw [digitsValue_zeros, digitsValue_toString]
  · exact forall_digits_append (forall_digits_replicate _) (fun _ => isDigit_of_mem_toString)

theorem exponentPart_injective {leading other : Int}
    (same : exponentPart leading = exponentPart other) : leading = other := by
  obtain ⟨digits, split, value, _⟩ := exponentPart_eq leading
  obtain ⟨digits', split', value', _⟩ := exponentPart_eq other
  rw [split, split'] at same
  obtain ⟨_, tail⟩ := List.cons.inj same
  obtain ⟨sign, rfl⟩ := List.cons.inj tail
  have sizes : leading.natAbs = other.natAbs := value.symm.trans value'
  by_cases negative : leading < 0 <;> by_cases negative' : other < 0
  · omega
  · rw [if_pos negative, if_neg negative'] at sign
    exact absurd sign (by decide)
  · rw [if_neg negative, if_pos negative'] at sign
    exact absurd sign (by decide)
  · omega

/-- The first digit, the point and the other digits if there are any, and the exponent. -/
theorem scientific_cons (first : Char) (rest : List Char) (leading : Int) :
    scientific (first :: rest) leading = (first :: pointed rest) ++ exponentPart leading := by
  cases rest <;> rfl

theorem exists_digitChars (d : Decimal) : ∃ first rest, d.digitChars = first :: rest ∧
    isDigit first = true ∧ ∀ c ∈ rest, isDigit c = true := by
  have digits := d.digit_of_mem_digitChars
  cases found : d.digitChars with
  | nil => exact absurd found (toString_ne_nil d.digits)
  | cons first rest =>
      rw [found] at digits
      obtain ⟨one, others⟩ := List.forall_mem_cons.mp digits
      exact ⟨first, rest, rfl, one, others⟩

/-- **A decimal can be read off its digits and its exponent.** -/
theorem scientific_injective {d other : Decimal}
    (same : scientific d.digitChars d.leadingExponent =
      scientific other.digitChars other.leadingExponent) : d = other := by
  obtain ⟨first, rest, split, digit, digits⟩ := d.exists_digitChars
  obtain ⟨first', rest', split', digit', digits'⟩ := other.exists_digitChars
  rw [split, split', scientific_cons, scientific_cons] at same
  -- The digits and the point in front of the mark of the exponent come first.
  have front : ∀ {first : Char} {rest : List Char}, isDigit first = true →
      (∀ c ∈ rest, isDigit c = true) → ∀ c ∈ first :: pointed rest, (c != 'e') = true := by
    intro first rest digit digits c member
    refine bne_iff_ne.mpr ?_
    rintro rfl
    rcases List.mem_cons.mp member with rfl | later
    · exact absurd digit (by decide)
    · exact not_mem_pointed digits (by decide) (by decide) later
  have stop : ∀ leading, ∀ c ∈ (exponentPart leading).head?, (c != 'e') = false := by
    rintro leading _ ⟨⟩
    rfl
  obtain ⟨places, exponents⟩ := cancel_span (· != 'e') (front digit digits) (front digit' digits')
    (stop _) (stop _) same
  obtain ⟨rfl, fractions⟩ := List.cons.inj places
  obtain rfl := pointed_injective fractions
  have chars : d.digitChars = other.digitChars := split.trans split'.symm
  have leading := exponentPart_injective exponents
  have whole : d.digits = other.digits := by
    rw [← digitsValue_toString d.digits, ← digitsValue_toString other.digits]
    exact congrArg digitsValue chars
  have scale : d.exponent = other.exponent := by
    rw [leadingExponent, leadingExponent, chars] at leading
    omega
  obtain ⟨_, _⟩ := d
  obtain ⟨_, _⟩ := other
  exact congr (congrArg Decimal.mk whole) scale

end Decimal

/-! ### What is written -/

/-- Characters that write a number out, with an exponent or without, and the number. -/
def IsWritten (chars : List Char) (value : Number) : Prop :=
  IsNumeral chars value ∨ ∃ d : Decimal,
    chars = Decimal.scientific d.digitChars d.leadingExponent ∧
      ofRatio d.numerator d.denominator = value

/-- **What is written is one number.** -/
theorem IsWritten.unique {chars : List Char} {x y : Number} (written : IsWritten chars x)
    (again : IsWritten chars y) : x = y := by
  rcases written with numeral | ⟨d, rfl, rfl⟩
  · rcases again with other | ⟨d, rfl, rfl⟩
    · have same := (literal_numeral numeral).symm.trans (literal_numeral other)
      exact Literal.number.inj same
    · exact absurd (Decimal.mem_scientific _ _) (numeral.not_mem (by decide) (by decide))
  · rcases again with other | ⟨d', same, rfl⟩
    · exact absurd (Decimal.mem_scientific _ _) (other.not_mem (by decide) (by decide))
    · rw [Decimal.scientific_injective same]

theorem IsWritten.head {chars : List Char} {x : Number} (written : IsWritten chars x) :
    ∃ c, chars.head? = some c ∧ isDigit c = true := by
  rcases written with numeral | ⟨d, rfl, _⟩
  · exact head_numeral numeral
  · obtain ⟨first, rest, split, digit, _⟩ := d.exists_digitChars
    rw [split, Decimal.scientific_cons]
    exact ⟨first, rfl, digit⟩

theorem Decimal.layout_written (d : Decimal) :
    IsWritten d.layout (ofRatio d.numerator d.denominator) := by
  unfold layout
  split
  · exact .inl d.positional_numeral
  · exact .inr ⟨d, rfl, rfl⟩

/-! ### Ways to write numbers -/

namespace Number

/-- A way to write numbers: with a word for all NaNs, and behind the sign with another word for the
infinities, or with something written from which the number is read. -/
structure Spells (text : Number → String) (nanWord infinityWord : List Char) : Prop where
  nan : ∀ x, x.isNaN = true → (text x).toList = nanWord
  proper : ∀ x, x.isNaN = false → ∃ chars, (text x).toList = x.signChars ++ chars ∧
    (IsWritten chars x.absolute ∨ chars = infinityWord ∧ x.absolute = infinity)
  nanLetter : ∃ c, nanWord.head? = some c ∧ isLetter c = true
  infinityLetter : ∃ c, infinityWord.head? = some c ∧ isLetter c = true
  apart : nanWord ≠ infinityWord

theorem isDigit_of_letter {c : Char} (letter : isLetter c = true) : isDigit c = false := by
  rw [← Bool.not_eq_true]
  intro digit
  rw [isDigit, Bool.and_eq_true, decide_eq_true_iff, decide_eq_true_iff] at digit
  have low : 48 ≤ c.toNat := digit.1
  have high : c.toNat ≤ 57 := digit.2
  simp only [isLetter, Bool.or_eq_true, Bool.and_eq_true, decide_eq_true_eq, beq_iff_eq] at letter
  rcases letter with (⟨small, _⟩ | ⟨capital, _⟩) | rfl
  · have least : 97 ≤ c.toNat := small
    omega
  · have least : 65 ≤ c.toNat := capital
    omega
  · exact absurd high (by decide)

/-- A number is made of its sign and its absolute value. -/
theorem eq_of_sign_of_absolute {x y : Number} (sign : x.isNegative = y.isNegative)
    (size : x.absolute = y.absolute) : x = y := by
  by_cases negative : x.isNegative = true
  · rw [← negate_absolute_of_negative negative, size, negate_absolute_of_negative (sign ▸ negative)]
  · rw [Bool.not_eq_true] at negative
    rw [← absolute_of_positive negative, size, absolute_of_positive (sign ▸ negative)]

/-- The sign in front of something that does not begin with one. -/
theorem signChars_cancel {x y : Number} {chars other : List Char}
    (same : x.signChars ++ chars = y.signChars ++ other) (bare : chars.head? ≠ some '-')
    (bare' : other.head? ≠ some '-') : x.isNegative = y.isNegative ∧ chars = other := by
  unfold signChars at same
  cases negative : x.isNegative <;> cases negative' : y.isNegative <;>
    simp only [negative, negative', Bool.false_eq_true, if_true, if_false, List.nil_append] at same
  · exact ⟨rfl, same⟩
  · exact absurd (congrArg List.head? same) bare
  · exact absurd (congrArg List.head? same).symm bare'
  · exact ⟨rfl, (List.cons.inj same).2⟩

namespace Spells

variable {text : Number → String} {nanWord infinityWord : List Char}

/-- What stands behind the sign begins with a digit or a letter. -/
theorem bare (spells : Spells text nanWord infinityWord) {chars : List Char} {value : Number}
    (written : IsWritten chars value ∨ chars = infinityWord ∧ value = infinity) :
    chars.head? ≠ some '-' := by
  intro minus
  rcases written with written | ⟨rfl, _⟩
  · obtain ⟨c, head, digit⟩ := written.head
    rw [head] at minus
    exact absurd (Option.some.inj minus) (ne_of_digit digit (by decide))
  · obtain ⟨c, head, letter⟩ := spells.infinityLetter
    rw [head] at minus
    rw [Option.some.inj minus] at letter
    exact absurd letter (by decide)

/-- The word for the infinities is no number that is written out. -/
theorem absolute_unique (spells : Spells text nanWord infinityWord) {chars : List Char}
    {x y : Number} (written : IsWritten chars x ∨ chars = infinityWord ∧ x = infinity)
    (again : IsWritten chars y ∨ chars = infinityWord ∧ y = infinity) : x = y := by
  have other : ∀ {value}, ¬ IsWritten infinityWord value := by
    intro value written
    obtain ⟨c, head, digit⟩ := written.head
    obtain ⟨c', head', letter⟩ := spells.infinityLetter
    rw [Option.some.inj (head.symm.trans head'), isDigit_of_letter letter] at digit
    cases digit
  rcases written with written | ⟨rfl, rfl⟩
  · rcases again with again | ⟨rfl, rfl⟩
    · exact written.unique again
    · exact absurd written other
  · rcases again with again | ⟨_, rfl⟩
    · exact absurd again other
    · rfl

/-- The word for the NaNs is no other number. -/
theorem text_ne_nan (spells : Spells text nanWord infinityWord) {x y : Number}
    (nan : x.isNaN = true) (proper : y.isNaN = false) : text x ≠ text y := by
  intro same
  obtain ⟨chars, split, written⟩ := spells.proper y proper
  obtain ⟨c, head, letter⟩ := spells.nanLetter
  have word : nanWord = y.signChars ++ chars := by
    rw [← spells.nan x nan, same, split]
  unfold signChars at word
  split at word
  · rw [word] at head
    rw [← Option.some.inj head] at letter
    exact absurd letter (by decide)
  · rw [List.nil_append] at word
    rcases written with written | ⟨rfl, _⟩
    · obtain ⟨d, first, digit⟩ := written.head
      rw [word, first] at head
      rw [Option.some.inj head, isDigit_of_letter letter] at digit
      cases digit
    · exact spells.apart word

/-- **A text belongs to one number, or to all NaNs.** -/
theorem eq_iff (spells : Spells text nanWord infinityWord) (x y : Number) :
    text x = text y ↔ x = y ∨ (x.isNaN = true ∧ y.isNaN = true) := by
  constructor
  · intro same
    cases nan : x.isNaN <;> cases nan' : y.isNaN
    · obtain ⟨chars, split, written⟩ := spells.proper x nan
      obtain ⟨chars', split', written'⟩ := spells.proper y nan'
      rw [same, split'] at split
      obtain ⟨sign, rfl⟩ := signChars_cancel split (spells.bare written') (spells.bare written)
      exact .inl (eq_of_sign_of_absolute sign.symm (spells.absolute_unique written written'))
    · exact absurd same.symm (spells.text_ne_nan nan' nan)
    · exact absurd same (spells.text_ne_nan nan nan')
    · exact .inr ⟨rfl, rfl⟩
  · rintro (rfl | ⟨nan, nan'⟩)
    · rfl
    · exact String.toList_inj.mp ((spells.nan x nan).trans (spells.nan y nan').symm)

end Spells

/-! ### Literals and printed numbers -/

theorem isFinite_of_not {x : Number} (proper : x.isNaN = false) (bounded : ¬ x.isInfinite = true) :
    x.isFinite = true := by
  rw [isFinite, proper, (Bool.not_eq_true _).mp bounded]
  rfl

theorem absolute_of_isInfinite {x : Number} (infinite : x.isInfinite = true) :
    x.absolute = infinity :=
  congrArg Number.mk (beq_iff_eq.mp infinite)

theorem layout_shortest_written {x : Number} (finite : x.isFinite = true) :
    IsWritten x.shortest.layout x.absolute := by
  have written := x.shortest.layout_written
  rwa [ofRatio_eq_absolute (shortest_readsBack finite)] at written

/-- Zero is written with a point and another zero. -/
theorem isNumeral_zero {x : Number} (zero : x.isZero = true) :
    IsNumeral ['0', '.', '0'] x.absolute := by
  refine ⟨['0'], ['0'], List.cons_ne_nil _ _, forall_digits_replicate 1, forall_digits_replicate 1,
    rfl, ?_⟩
  have none : x.magnitude = 0 := beq_iff_eq.mp zero
  rw [absolute, none]
  decide +kernel

/-- How numbers are written as literals. -/
theorem toLiteral_spells : Spells toLiteral "nan".toList "inf".toList where
  nan x nan := by rw [toLiteral, if_pos nan]
  proper x proper := by
    rw [toLiteral, if_neg (by rw [proper]; decide)]
    by_cases infinite : x.isInfinite = true
    · rw [if_pos infinite, toList_signed]
      exact ⟨_, rfl, .inr ⟨rfl, absolute_of_isInfinite infinite⟩⟩
    rw [if_neg infinite]
    by_cases zero : x.isZero = true
    · rw [if_pos zero, toList_signed]
      exact ⟨_, rfl, .inl (.inl (isNumeral_zero zero))⟩
    · rw [if_neg zero, toList_signed, String.toList_ofList]
      exact ⟨_, rfl, .inl (layout_shortest_written (isFinite_of_not proper infinite))⟩
  nanLetter := ⟨'n', rfl, by decide⟩
  infinityLetter := ⟨'i', rfl, by decide⟩
  apart := by decide

/-- How numbers are printed: a whole number that is not too large has no point. -/
theorem toText_spells : Spells toText "NaN".toList "Infinity".toList where
  nan x nan := by rw [toText, if_pos nan]
  proper x proper := by
    rw [toText, if_neg (by rw [proper]; decide)]
    by_cases infinite : x.isInfinite = true
    · rw [if_pos infinite, toList_signed]
      exact ⟨_, rfl, .inr ⟨rfl, absolute_of_isInfinite infinite⟩⟩
    rw [if_neg infinite]
    have finite := isFinite_of_not proper infinite
    by_cases plain : x.isPlain = true
    · rw [if_pos plain, toList_signed]
      refine ⟨_, rfl, .inl (.inl ?_)⟩
      rw [← ofRatio_wholePart finite ((Bool.and_eq_true _ _).mp plain).1]
      exact isNumeral_toString _
    · rw [if_neg plain]
      obtain ⟨chars, split, written⟩ := toLiteral_spells.proper x proper
      refine ⟨chars, split, .inl (written.resolve_right fun word => infinite ?_)⟩
      have same : x.magnitude = infiniteMagnitude := congrArg Number.bits word.2
      exact beq_iff_eq.mpr same
  nanLetter := ⟨'N', rfl, by decide⟩
  infinityLetter := ⟨'I', rfl, by decide⟩
  apart := by decide

end Number

/-- **Distinct numbers print differently.** Two numbers have the same text, on whatever machine,
just if they have the same bits or both are NaNs: the zeros and the infinities are told apart by
their signs, and all others, subnormal or not, with an exponent, a point or neither, by their
digits. -/
theorem Machine.text_number_iff (machine : Machine) (v w : Number) :
    machine.text (.number v) = machine.text (.number w) ↔
      v.bits = w.bits ∨ (v.isNaN = true ∧ w.isNaN = true) := by
  have bits : v.bits = w.bits ↔ v = w := ⟨fun same => congrArg Number.mk same, congrArg Number.bits⟩
  rw [bits]
  exact toText_spells.eq_iff v w

end Lox
