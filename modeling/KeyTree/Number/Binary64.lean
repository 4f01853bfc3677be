import KeyTree.Number.Rounding

/-!
# Binary numbers of 53 significant bits

The numbers of the binary64 format, kept as exact values `mantissa * 2 ^ exponent`, and rounding of
a quotient to the nearest of them. A product or a quotient of such numbers is computed exactly
first and rounded once.

## Main definitions

* `Dyadic` — a finite magnitude.
* `Dyadic.nearest` — the nearest magnitude with 53 significant bits.
* `Binary64` — signed magnitudes, infinities and the value that is no number.
-/

namespace KeyTree.Number

/-- The magnitude `mantissa * 2 ^ exponent`. -/
structure Dyadic where
  mantissa : Nat
  exponent : Int
deriving DecidableEq, Repr

namespace Dyadic

/-- The value as a quotient of natural numbers, the divisor being a power of two. -/
def ratio (x : Dyadic) : Nat × Nat :=
  (x.mantissa * Nat.pow 2 x.exponent.toNat, Nat.pow 2 (-x.exponent).toNat)

/-- The largest integer that is not above the value. -/
def floor (x : Dyadic) : Nat :=
  x.ratio.1 / x.ratio.2

/-- The least exponent: below `2 ^ -1022` the numbers of the format are evenly spaced. -/
def minExponent : Int := -1074

/-- The exponent at which the mantissa of the positive quotient `num / den` has 53 bits, or the
least exponent. -/
def exponentFor (num den : Nat) : Int :=
  let low : Int := (Nat.log2 num : Int) - (Nat.log2 den : Int) - 53
  let fits := num * Nat.pow 2 (-low).toNat < den * Nat.pow 2 low.toNat * Nat.pow 2 53
  max minExponent (if fits then low else low + 1)

/-- The magnitude nearest to `num / den`, a tie going to the even mantissa. -/
def nearest (num den : Nat) : Dyadic :=
  if num = 0 then ⟨0, minExponent⟩
  else
    let exponent := exponentFor num den
    let mantissa :=
      roundEven (num * Nat.pow 2 (-exponent).toNat) (den * Nat.pow 2 exponent.toNat)
    if mantissa = Nat.pow 2 53 then ⟨Nat.pow 2 52, exponent + 1⟩ else ⟨mantissa, exponent⟩

/-- The product with a natural number, rounded. -/
def timesNat (x : Dyadic) (n : Nat) : Dyadic :=
  nearest (x.ratio.1 * n) x.ratio.2

/-- Whether the value is beyond the largest finite number of the format. -/
def overflows (x : Dyadic) : Bool :=
  x.ratio.2 * Nat.pow 2 1024 ≤ x.ratio.1

end Dyadic

/-- A number of the binary64 format. -/
inductive Binary64 where
  | finite (negative : Bool) (magnitude : Dyadic)
  | infinite (negative : Bool)
  | nan
deriving DecidableEq, Repr

namespace Binary64

/-- The number nearest to a signed quotient; too large a quotient is infinite. -/
def ofQuotient (negative : Bool) (num den : Nat) : Binary64 :=
  let magnitude := Dyadic.nearest num den
  if magnitude.overflows then .infinite negative else .finite negative magnitude

/-- The number nearest to `coefficient * 10 ^ exponent`. A value with more than 400 digits before
the point is infinite, one with more than 400 zeros after it is zero, and neither power is formed.
-/
def ofDecimal (negative : Bool) (coefficient : Nat) (exponent : Int) : Binary64 :=
  let digits : Int := (Nat.toDigits 10 coefficient).length
  if coefficient ≠ 0 ∧ 400 < digits + exponent then .infinite negative
  else if coefficient = 0 ∨ digits + exponent < -400 then .finite negative (Dyadic.nearest 0 1)
  else ofQuotient negative (coefficient * Nat.pow 10 exponent.toNat) (Nat.pow 10 (-exponent).toNat)

/-- Whether the number is above zero. -/
def isPositive : Binary64 → Bool
  | .finite negative magnitude => !negative && magnitude.mantissa != 0
  | .infinite negative => !negative
  | .nan => false

/-- Whether the number is neither infinite nor the value that is no number. -/
def isFinite : Binary64 → Bool
  | .finite .. => true
  | _ => false

/-- The integer that the number equals, if there is one. -/
def whole? : Binary64 → Option Int
  | .finite negative magnitude =>
    if magnitude.ratio.1 % magnitude.ratio.2 = 0 then
      some (if negative then -(magnitude.floor : Int) else magnitude.floor)
    else none
  | _ => none

example : ofDecimal false 25 (-1) = .finite false ⟨5 * Nat.pow 2 50, -51⟩ := by decide +kernel

example : ofDecimal false 1 400 = .infinite false := by decide +kernel

end Binary64

end KeyTree.Number
