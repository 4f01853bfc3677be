import KeyTree.Number.Binary64
import KeyTree.Number.Digits

/-!
# The fewest digits that read back

A decimal text of a binary number is *faithful* when the number is the nearest one to it. Among the
decimals of each length the two neighbours of the number are tried, and the shortest faithful one is
taken; of two of one length the nearer.

## Main definitions

* `Decimal` — a digit string and the power of ten of its first digit.
* `Decimal.shortest` — the shortest faithful decimal of a positive magnitude.
* `DecimalLayout` — where the point and the exponent go.
-/

namespace KeyTree.Number

/-- The decimal `digits * 10 ^ (power - (number of digits - 1))`: `power` is the power of ten of the
first digit. -/
structure Decimal where
  digits : Nat
  power : Int
deriving DecidableEq, Repr

namespace Decimal

/-- `num / den * 10 ^ shift` as a quotient. -/
def scale (num den : Nat) (shift : Int) : Nat × Nat :=
  (num * Nat.pow 10 shift.toNat, den * Nat.pow 10 (-shift).toNat)

/-- The power of ten of the first digit of the positive quotient `num / den`. -/
def leadingPower (num den : Nat) : Int :=
  let guess : Int :=
    ((Nat.toDigits 10 num).length : Int) - ((Nat.toDigits 10 den).length : Int)
  let scaled := scale num den (-guess)
  if scaled.2 ≤ scaled.1 then guess else guess - 1

/-- Whether `candidate / 10 ^ shift` lies between the midpoints to the neighbours of `x`, a midpoint
counting when the mantissa is even. The midpoint below a power of two is half as far away. -/
def isFaithful (x : Dyadic) (shift : Int) (candidate : Nat) : Bool :=
  let narrow := x.mantissa = Nat.pow 2 52 ∧ Dyadic.minExponent < x.exponent
  -- four times the value and its bounds, in units of the last binary place
  let below := 4 * x.mantissa - (if narrow then 1 else 2)
  let above := 4 * x.mantissa + 2
  let unit : Dyadic := ⟨1, x.exponent⟩
  let scaled := scale unit.ratio.1 unit.ratio.2 shift
  let here := 4 * candidate * scaled.2
  let low := below * scaled.1
  let high := above * scaled.1
  if x.mantissa % 2 = 0 then low ≤ here && here ≤ high else low < here && here < high

/-- The nearer faithful neighbour of `x` among the decimals with `count` digits, if there is one. -/
def withDigits (x : Dyadic) (power : Int) (count : Nat) : Option Decimal :=
  let shift : Int := (count : Int) - 1 - power
  let scaled := scale x.ratio.1 x.ratio.2 shift
  let lower := scaled.1 / scaled.2
  let nearer := roundEven scaled.1 scaled.2
  let other := if nearer = lower then lower + 1 else lower
  let pick (n : Nat) : Decimal :=
    if n = Nat.pow 10 count then ⟨Nat.pow 10 (count - 1), power + 1⟩ else ⟨n, power⟩
  if isFaithful x shift nearer then some (pick nearer)
  else if isFaithful x shift other then some (pick other)
  else none

/-- The shortest faithful decimal of a positive magnitude. Seventeen digits always suffice. -/
def shortest (x : Dyadic) : Decimal :=
  let power := leadingPower x.ratio.1 x.ratio.2
  ((List.range 17).findSome? fun n => withDigits x power (n + 1)).getD ⟨0, 0⟩

end Decimal

/-- How decimals are laid out. -/
structure DecimalLayout where
  /-- The least power of ten that is written without an exponent. -/
  leastPlain : Int
  /-- The largest power of ten that is written without an exponent. -/
  largestPlain : Int
  /-- The least number of digits of an exponent. -/
  exponentWidth : Nat

namespace DecimalLayout

/-- The text of a decimal. Without an exponent there is at least one digit on both sides of the
point; with an exponent a point stands only before further digits. -/
def write (layout : DecimalLayout) (x : Decimal) : List Char :=
  let digits := (((Nat.toDigits 10 x.digits).reverse.dropWhile (· = '0')).reverse)
  if layout.leastPlain ≤ x.power ∧ x.power ≤ layout.largestPlain then
    if x.power < 0 then
      ['0', '.'] ++ List.replicate ((-x.power).toNat - 1) '0' ++ digits
    else
      let whole := x.power.toNat + 1
      let front := digits.take whole
      let back := digits.drop whole
      front ++ List.replicate (whole - front.length) '0' ++ ['.'] ++
        (if back.isEmpty then ['0'] else back)
  else
    let front := digits.take 1
    let back := digits.drop 1
    let sign := if x.power < 0 then '-' else '+'
    front ++ (if back.isEmpty then [] else '.' :: back) ++ ['e', sign] ++
      padded layout.exponentWidth x.power.natAbs

end DecimalLayout

end KeyTree.Number
