/-
**Numbers.** The numbers of the language are the IEEE double-precision numbers, held as their bits.

* `magnitude` is the pattern without the sign; a larger magnitude is a larger absolute value.
* `same`, `less` and `atMost` compare as the standard says: a NaN is unlike everything, itself
  included, and the two zeros are alike.
* A finite number is `significand * 2 ^ scale / 2 ^ 1074`, up to its sign.
-/

namespace Lox

/-- A double-precision number. -/
structure Number where
  bits : UInt64
deriving DecidableEq, Inhabited

namespace Number

/-! ### Parts -/

/-- The bit that makes a number negative. -/
def signBit : UInt64 := 0x8000000000000000

/-- The magnitude of the infinities. The magnitudes above it are those of the NaNs. -/
def infiniteMagnitude : UInt64 := 0x7FF0000000000000

/-- The pattern without the sign. -/
def magnitude (x : Number) : UInt64 :=
  x.bits &&& 0x7FFFFFFFFFFFFFFF

/-- Whether the sign bit is set. Minus zero is negative in this sense. -/
def isNegative (x : Number) : Bool :=
  signBit ≤ x.bits

/-- Whether a number is one of the NaNs. -/
def isNaN (x : Number) : Bool :=
  infiniteMagnitude < x.magnitude

/-- Whether a number is one of the two infinities. -/
def isInfinite (x : Number) : Bool :=
  x.magnitude == infiniteMagnitude

/-- Whether a number is one of the two zeros. -/
def isZero (x : Number) : Bool :=
  x.magnitude == 0

/-- The number of patterns between a power of two and the next one: `2 ^ 52`. -/
def binade : Nat := Nat.pow 2 52

/-- The whole number that the pattern scales: 53 bits, of which the first is set unless the number
is subnormal. -/
def significand (x : Number) : Nat :=
  let pattern := x.magnitude.toNat
  if pattern < binade then pattern else binade + pattern % binade

/-- The power of two by which the significand is scaled, counted from the least one there is. -/
def scale (x : Number) : Nat :=
  x.magnitude.toNat / binade - 1

/-- The absolute value in units of `2 ^ -1074`, of which every finite number is a whole multiple. -/
def units (x : Number) : Nat :=
  x.significand * Nat.pow 2 x.scale

/-- How many units make one. -/
def unitsPerOne : Nat := Nat.pow 2 1074

/-- The number with a given sign and magnitude. -/
def ofMagnitude (negative : Bool) (magnitude : UInt64) : Number :=
  ⟨if negative then magnitude ||| signBit else magnitude⟩

/-- Plus zero. -/
def zero : Number := ⟨0⟩

/-- Plus infinity. -/
def infinity : Number := ⟨infiniteMagnitude⟩

/-- The NaN without sign and payload. -/
def nan : Number := ⟨0x7FF8000000000000⟩

/-! ### Comparison -/

/-- Whether two numbers are equal as numbers. -/
def same (x y : Number) : Bool :=
  !x.isNaN && !y.isNaN && (x.bits == y.bits || (x.isZero && y.isZero))

/-- Whether the first number lies below the second. -/
def less (x y : Number) : Bool :=
  !x.isNaN && !y.isNaN &&
    match x.isNegative, y.isNegative with
    | false, false => x.magnitude < y.magnitude
    | true, true => y.magnitude < x.magnitude
    | true, false => !(x.isZero && y.isZero)
    | false, true => false

/-- Whether the first number lies below the second or equals it. -/
def atMost (x y : Number) : Bool :=
  x.less y || x.same y

/-! ### Arithmetic -/

/-- The number with the opposite sign. -/
def negate (x : Number) : Number :=
  ⟨x.bits ^^^ signBit⟩

/-- The sum, rounded to nearest. -/
def add (x y : Number) : Number :=
  ⟨(Float.ofBits x.bits + Float.ofBits y.bits).toBits⟩

/-- The difference, rounded to nearest. -/
def subtract (x y : Number) : Number :=
  ⟨(Float.ofBits x.bits - Float.ofBits y.bits).toBits⟩

/-- The product, rounded to nearest. -/
def multiply (x y : Number) : Number :=
  ⟨(Float.ofBits x.bits * Float.ofBits y.bits).toBits⟩

/-- The quotient, rounded to nearest. -/
def divide (x y : Number) : Number :=
  ⟨(Float.ofBits x.bits / Float.ofBits y.bits).toBits⟩

end Number

end Lox
