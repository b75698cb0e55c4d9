/-
**Shortest decimals.** The fewest decimal digits that read back as the same double.

* `Decimal` is a whole number times a power of ten.
* `shortest` tries one digit, then two, and so on. With each number of digits only the two
  neighbours of the value on that decimal grid need a look; of two that read back the nearer is
  taken, and of two equally near the one with the even last digit.
-/

import Lox.Number.Rounding

namespace Lox

/-- The number `digits * 10 ^ exponent`. -/
structure Decimal where
  digits : Nat
  exponent : Int
deriving DecidableEq

namespace Decimal

/-- The numerator of a decimal, over the power of ten that `denominator` gives. -/
def numerator (d : Decimal) : Nat :=
  d.digits * Nat.pow 10 d.exponent.toNat

/-- The power of ten under the numerator: one, unless the exponent is negative. -/
def denominator (d : Decimal) : Nat :=
  Nat.pow 10 (-d.exponent).toNat

/-- Moves trailing zeros, at most `fuel` of them, from the digits into the exponent. -/
def stripZeros : Nat → Decimal → Decimal
  | 0, d => d
  | fuel + 1, d =>
    if d.digits ≠ 0 ∧ d.digits % 10 = 0 then stripZeros fuel ⟨d.digits / 10, d.exponent + 1⟩ else d

/-- The same number without trailing zeros among its digits. -/
def normalize (d : Decimal) : Decimal :=
  stripZeros (Nat.log2 d.digits + 1) d

/-- The text of the digits, the first one first. -/
def digitChars (d : Decimal) : List Char :=
  (toString d.digits).toList

/-- The power of ten of the first digit. -/
def leadingExponent (d : Decimal) : Int :=
  d.exponent + d.digitChars.length - 1

end Decimal

namespace Number

/-- Whether a decimal reads as the double with the given magnitude. -/
def readsBack (magnitude : Nat) (d : Decimal) : Bool :=
  nearestMagnitude d.numerator d.denominator == magnitude

/-- The least exponent `-k`, with `k` at most the fuel added to the given one, such that the units
times `10 ^ k` make at least one. -/
def negativeExponent (units : Nat) : Nat → Nat → Nat
  | 0, k => k
  | fuel + 1, k =>
    if unitsPerOne ≤ units * Nat.pow 10 k then k else negativeExponent units fuel (k + 1)

/-- The power of ten of the first decimal digit of a positive number of units. -/
def decimalExponent (units : Nat) : Int :=
  if unitsPerOne ≤ units then ((toString (units / unitsPerOne)).length : Int) - 1
  else -(negativeExponent units 324 1 : Int)

/-- The neighbour of `num / den` on the grid of multiples of `10 ^ exponent` that reads back, and
the nearer one if both do. Numerator and denominator are in units of the grid. -/
def nearer (reads : Decimal → Bool) (num den : Nat) (exponent : Int) : Option Decimal :=
  let low : Decimal := ⟨num / den, exponent⟩
  let high : Decimal := ⟨num / den + 1, exponent⟩
  match reads low, reads high with
  | true, true => some ⟨roundDiv num den, exponent⟩
  | true, false => some low
  | false, true => some high
  | false, false => none

/-- The neighbour of a number of units on the grid of multiples of `10 ^ exponent`. -/
def neighbour (magnitude units : Nat) (exponent : Int) : Option Decimal :=
  nearer (readsBack magnitude) (units * Nat.pow 10 (-exponent).toNat)
    (unitsPerOne * Nat.pow 10 exponent.toNat) exponent

/-- All decimal digits of a number of units. -/
def exactDecimal (units : Nat) : Decimal :=
  ⟨units * Nat.pow 5 1074, -1074⟩

/-- What the first of the attempts `count`, `count + 1`, … gives that gives something, and the last
resort if none of them does. -/
def firstFound (attempt : Nat → Option Decimal) (lastResort : Decimal) : Nat → Nat → Decimal
  | 0, _ => lastResort
  | fuel + 1, count =>
    match attempt count with
    | some d => d
    | none => firstFound attempt lastResort fuel (count + 1)

/-- The shortest decimal that reads back as the absolute value of a finite number: it is looked for
with one digit, with two, and so on. Seventeen digits are always enough. -/
def shortest (x : Number) : Decimal :=
  let leading := decimalExponent x.units
  let attempt := fun count : Nat => neighbour x.magnitude.toNat x.units (leading - count + 1)
  (firstFound attempt (exactDecimal x.units) 17 1).normalize

end Number

end Lox
