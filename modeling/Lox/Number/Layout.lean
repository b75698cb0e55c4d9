/-
**The text of a number.**

* `toLiteral` is the shortest decimal, positional from `10 ^ -4` up to below `10 ^ 16` and with an
  exponent beyond, and always recognisable as a fraction.
* `toText` is what a program prints: whole numbers below `10 ^ 21` have all their digits and no
  point.
-/

import Lox.Number.Shortest

namespace Lox

namespace Decimal

/-- The exponents of the first digit that are written without an exponent. -/
def isPositional (leading : Int) : Bool :=
  -4 ≤ leading && leading < 16

/-- Digits with a point after the digit that has the power of ten zero. -/
def positional (digits : List Char) (leading : Int) : List Char :=
  if leading < 0 then '0' :: '.' :: List.replicate (-leading - 1).toNat '0' ++ digits
  else
    let whole := leading.toNat + 1
    if digits.length ≤ whole then digits ++ List.replicate (whole - digits.length) '0' ++ ['.', '0']
    else digits.take whole ++ '.' :: digits.drop whole

/-- The exponent part: its mark, its sign, and at least two digits. -/
def exponentPart (leading : Int) : List Char :=
  let digits := (toString leading.natAbs).toList
  ['e', if leading < 0 then '-' else '+'] ++ List.replicate (2 - digits.length) '0' ++ digits

/-- Digits with a point after the first, if there are more, and an exponent. -/
def scientific (digits : List Char) (leading : Int) : List Char :=
  match digits with
  | first :: rest@(_ :: _) => first :: '.' :: rest ++ exponentPart leading
  | _ => digits ++ exponentPart leading

/-- The text of a decimal. -/
def layout (d : Decimal) : List Char :=
  if isPositional d.leadingExponent then positional d.digitChars d.leadingExponent
  else scientific d.digitChars d.leadingExponent

end Decimal

namespace Number

/-- The sign in front of a text. -/
def signed (x : Number) (text : String) : String :=
  if x.isNegative then "-" ++ text else text

/-- The text of a number as a literal. -/
def toLiteral (x : Number) : String :=
  if x.isNaN then "nan"
  else if x.isInfinite then x.signed "inf"
  else if x.isZero then x.signed "0.0"
  else x.signed (String.ofList x.shortest.layout)

/-- Whether a finite number is whole. -/
def isWhole (x : Number) : Bool :=
  x.units % unitsPerOne == 0

/-- The absolute value of a finite number, without its fraction. -/
def wholePart (x : Number) : Nat :=
  x.units / unitsPerOne

/-- Whether a finite number is printed with all digits and no point. -/
def isPlain (x : Number) : Bool :=
  x.isWhole && x.wholePart < Nat.pow 10 21

/-- The text of a number as programs print it. -/
def toText (x : Number) : String :=
  if x.isNaN then "NaN"
  else if x.isInfinite then x.signed "Infinity"
  else if x.isPlain then x.signed (toString x.wholePart)
  else x.toLiteral

end Number

end Lox
