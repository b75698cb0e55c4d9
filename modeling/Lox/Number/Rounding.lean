/-
**Rounding.** The double nearest to a ratio of natural numbers, in exact arithmetic.

* `roundDiv` is a quotient rounded to the nearest whole number, a half going to the even one.
* `nearestMagnitude` is the magnitude of the double nearest to a ratio.
* `ofDecimal` reads a decimal numeral.
-/

import Lox.Number.Basic

namespace Lox

/-- The quotient rounded to the nearest whole number; a half goes to the even neighbour. -/
def roundDiv (num den : Nat) : Nat :=
  let quotient := num / den
  let rest := num % den
  if 2 * rest < den then quotient
  else if den < 2 * rest then quotient + 1
  else quotient + quotient % 2

namespace Number

/-- The magnitude of the double nearest to `num / den`, a half going to the even one, and the
infinite magnitude above the finite ones.

In units of `2 ^ -1074` the ratio is `num * 2 ^ 1074 / den`. A double has at most 53 bits, so that
many units are rounded to a multiple of `2 ^ shift`, where `shift` is the number of bits beyond 53.
The pattern of `m * 2 ^ shift` units is `shift * 2 ^ 52 + m`, also when rounding up carries into a
54th bit. -/
def nearestMagnitude (num den : Nat) : Nat :=
  let units := num * unitsPerOne
  let shift := Nat.log2 (units / den) - 52
  min infiniteMagnitude.toNat (shift * binade + roundDiv units (den * Nat.pow 2 shift))

/-- The double nearest to a ratio. -/
def ofRatio (num den : Nat) : Number :=
  ⟨(nearestMagnitude num den).toUInt64⟩

/-- The double nearest to a whole number. -/
def ofInt (value : Int) : Number :=
  ofMagnitude (value < 0) (nearestMagnitude value.natAbs 1).toUInt64

/-- The value of a run of decimal digits. -/
def digitsValue (digits : List Char) : Nat :=
  digits.foldl (fun value digit => 10 * value + (digit.toNat - 48)) 0

/-- The double nearest to the decimal numeral with the given digits before and after its point. -/
def ofDecimal (whole fraction : List Char) : Number :=
  ofRatio (digitsValue (whole ++ fraction)) (Nat.pow 10 fraction.length)

end Number

end Lox
