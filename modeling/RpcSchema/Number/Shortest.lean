import RpcSchema.Number.Binary64

/-!
# Shortest decimals

The shortest decimal that reads back as a given binary value, and among those
of that length the one nearest to the value, a tie going to the even digit.

The reals that round to `m · 2 ^ q` form an interval around it, ends included
when `m` is even.  For one digit, two digits and so on, the two neighbours of
the value on the decimal grid of that many digits are tested; the first grid
with a neighbour inside the interval decides.

## Main definitions

* `Decimal` — digits and a power of ten.
* `Binary64.shortest` — the shortest decimal of a non-zero value.
-/

namespace RpcSchema

/-- The number `digits · 10 ^ exponent`. -/
structure Decimal where
  digits : Nat
  exponent : Int
  deriving DecidableEq, Repr, Inhabited

namespace Decimal

/-- The number of decimal digits of a natural number. -/
def length (n : Nat) : Nat := (Nat.toDigits 10 n).length

/-- Move trailing zeros of the digits into the exponent, at most `limit` of
them. -/
def trim : Nat → Decimal → Decimal
  | 0, d => d
  | limit + 1, d =>
    if d.digits ≠ 0 ∧ d.digits % 10 = 0 then trim limit ⟨d.digits / 10, d.exponent + 1⟩ else d

/-- The exponent in scientific notation, with one digit before the point. -/
def scientificExponent (d : Decimal) : Int := length d.digits - 1 + d.exponent

end Decimal

namespace Binary64

/-- Both `d · 10 ^ k` and `c · 2 ^ p` as naturals over one denominator. -/
def onOneScale (d : Nat) (k : Int) (c : Nat) (p : Int) : Nat × Nat :=
  (d * Nat.pow 10 k.toNat * Nat.pow 2 (-p).toNat, c * Nat.pow 2 p.toNat * Nat.pow 10 (-k).toNat)

/-- The floor of the decimal logarithm of `significand · 2 ^ exponent`, not zero. -/
def floorLogTen (significand : Nat) (exponent : Int) : Int :=
  let ratio := shiftRatio significand 1 (-exponent)
  if ratio.2 ≤ ratio.1 then Decimal.length (ratio.1 / ratio.2) - 1
  else
    let k := Decimal.length (ratio.2 / ratio.1)
    if ratio.2 ≤ ratio.1 * Nat.pow 10 (k - 1) then -((k : Int) - 1) else -(k : Int)

/-- The lower end of the rounding interval in units of `2 ^ (exponent - 2)`: the
values below a power of two lie twice as close. -/
def lowerEnd (x : Binary64) : Nat :=
  if x.significand = Nat.pow 2 52 ∧ minExponent < x.exponent then 4 * x.significand - 1
  else 4 * x.significand - 2

/-- The upper end of the rounding interval in units of `2 ^ (exponent - 2)`. -/
def upperEnd (x : Binary64) : Nat := 4 * x.significand + 2

/-- Whether `digits · 10 ^ k` rounds to the magnitude of `x`. -/
def readsBack (x : Binary64) (digits : Nat) (k : Int) : Bool :=
  let unit := x.exponent - 2
  let low := onOneScale digits k x.lowerEnd unit
  let high := onOneScale digits k x.upperEnd unit
  if x.significand % 2 = 0 then low.2 ≤ low.1 && high.1 ≤ high.2
  else low.2 < low.1 && high.1 < high.2

/-- The better neighbour of `x` on the grid of multiples of `10 ^ k`, when one
reads back. -/
def neighbour? (x : Binary64) (k : Int) : Option Decimal :=
  let unit := onOneScale 1 k x.significand x.exponent
  let below := unit.2 / unit.1
  let remainder := 2 * (unit.2 % unit.1)
  let above := below + 1
  match readsBack x below k && below != 0, readsBack x above k with
  | true, true =>
    if remainder < unit.1 ∨ (remainder = unit.1 ∧ below % 2 = 0) then some ⟨below, k⟩
    else some ⟨above, k⟩
  | true, false => some ⟨below, k⟩
  | false, true => some ⟨above, k⟩
  | false, false => none

/-- Search the grids of `17 - fuel`, … , 17 digits below the leading exponent. -/
def searchGrids (x : Binary64) (leading : Int) : Nat → Decimal
  | 0 => ⟨0, 0⟩
  | fuel + 1 =>
    match neighbour? x (leading - (16 - fuel)) with
    | some found => found
    | none => searchGrids x leading fuel

/-- The shortest decimal that reads back as the magnitude of `x`, nearest to it
among those of its length; `x` is not zero. -/
def shortest (x : Binary64) : Decimal :=
  Decimal.trim 17 (searchGrids x (floorLogTen x.significand x.exponent) 17)

end Binary64

end RpcSchema
