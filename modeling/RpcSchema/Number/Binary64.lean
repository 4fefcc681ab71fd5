/-!
# Binary floating-point numbers

The finite values of the 64-bit binary format, as exact integers: a sign, a
significand and a power of two.  Every operation computes the exact rational
result and rounds it once, to the nearest value, a half going to the even
significand.  Working on integers keeps equality and printing open to proof.

A value is *canonical*: the exponent is the least one the format has, or the
significand has all its 53 bits.  `Binary64.ofRatio` produces only canonical
values, so that structural equality tells two values apart exactly when their
bits differ.

## Main definitions

* `Binary64` — a finite value.
* `Binary64.ofRatio` — the value nearest to a quotient of naturals, `none` when
  it is too large for the format.
* `Binary64.ofNat`, `Binary64.mul`, `Binary64.div` — rounded operations.
* `Binary64.isWhole` — whether the value is an integer.
* `Binary64.scaleByTen` — a value times a power of ten, as number readers do it.
-/

namespace RpcSchema

/-- A finite value `± significand · 2 ^ exponent`. -/
structure Binary64 where
  /-- Whether the sign is a minus; zero has both signs. -/
  negative : Bool
  significand : Nat
  exponent : Int
  deriving DecidableEq, Repr, Inhabited

namespace Binary64

/-- The least exponent of the format. -/
def minExponent : Int := -1074

/-- The greatest exponent of the format. -/
def maxExponent : Int := 971

/-- The zero of a sign. -/
def zero (negative : Bool) : Binary64 := ⟨negative, 0, minExponent⟩

/-- The integer nearest to `num / den`, a half going to the even neighbour. -/
def roundHalfEven (num den : Nat) : Nat :=
  let quotient := num / den
  let twice := 2 * (num % den)
  if twice < den then quotient
  else if den < twice then quotient + 1
  else if quotient % 2 = 0 then quotient
  else quotient + 1

/-- `num / (den · 2 ^ exponent)` as a pair of naturals. -/
def shiftRatio (num den : Nat) (exponent : Int) : Nat × Nat :=
  if 0 ≤ exponent then (num, den * Nat.pow 2 exponent.toNat)
  else (num * Nat.pow 2 (-exponent).toNat, den)

/-- The floor of the binary logarithm of `num / den`, both positive. -/
def floorLog (num den : Nat) : Int :=
  let guess : Int := (num.log2 : Int) - (den.log2 : Int)
  let scaled := shiftRatio num den guess
  if scaled.2 ≤ scaled.1 then guess else guess - 1

/-- The value nearest to `num / den`, or `none` beyond the largest value. -/
def ofRatio (negative : Bool) (num den : Nat) : Option Binary64 :=
  if num = 0 then some (zero negative)
  else
    let exponent := max (floorLog num den - 52) minExponent
    let scaled := shiftRatio num den exponent
    let significand := roundHalfEven scaled.1 scaled.2
    -- rounding up may carry into a 54th bit
    let carried := significand = Nat.pow 2 53
    let significand := if carried then Nat.pow 2 52 else significand
    let exponent := if carried then exponent + 1 else exponent
    if maxExponent < exponent then none else some ⟨negative, significand, exponent⟩

/-- The value nearest to a natural number below `2 ^ 1024`. -/
def ofNat (n : Nat) : Option Binary64 := ofRatio false n 1

/-- The rounded product. -/
def mul (x y : Binary64) : Option Binary64 :=
  let product := shiftRatio (x.significand * y.significand) 1 (-(x.exponent + y.exponent))
  ofRatio (xor x.negative y.negative) product.1 product.2

/-- The rounded quotient by a value other than zero. -/
def div (x y : Binary64) : Option Binary64 :=
  let quotient := shiftRatio x.significand y.significand (y.exponent - x.exponent)
  ofRatio (xor x.negative y.negative) quotient.1 quotient.2

/-- Whether the value is a zero of either sign. -/
def isZero (x : Binary64) : Bool := x.significand = 0

/-- Whether the value is an integer. -/
def isWhole (x : Binary64) : Bool :=
  0 ≤ x.exponent || x.significand % Nat.pow 2 (-x.exponent).toNat = 0

/-- Equality of values: the two zeros are equal. -/
def beq (x y : Binary64) : Bool := (x.isZero && y.isZero) || x = y

instance : BEq Binary64 := ⟨beq⟩

/-- The value nearest to `10 ^ k`, for `k` up to 308. -/
def powerOfTen (k : Nat) : Option Binary64 := ofNat (Nat.pow 10 k)

/-- `x · 10 ^ exponent` in rounded steps.  A power of ten that the format holds
is applied at once; smaller scales divide by `10 ^ 308` until the rest is within
reach or nothing is left.  `none` when the result is too large. -/
def scaleByTen (x : Binary64) (exponent : Int) : Option Binary64 :=
  if exponent.natAbs ≤ 308 then
    (powerOfTen exponent.natAbs).bind fun power =>
      if 0 ≤ exponent then mul x power else div x power
  else if x.isZero then some x
  else if h : 0 ≤ exponent then none
  else
    (powerOfTen 308).bind fun power =>
      (div x power).bind fun rest => scaleByTen rest (exponent + 308)
termination_by (-exponent).toNat
decreasing_by omega

/-- The same magnitude with the given sign. -/
def withSign (x : Binary64) (negative : Bool) : Binary64 := { x with negative }

end Binary64

end RpcSchema
