import CircuitSketch.Bits.Power

/-!
# Fractions

A number that is written with a point or an exponent is kept to fifty-three binary digits. The
number that is kept is the nearest one of that form, and of two that are equally near the one whose
last digit is zero. Numbers beyond the range are infinite, and a fraction without any value is
undefined.

Everything is computed on whole numbers: a quotient is scaled until it has the right number of
digits and rounded once.
-/
namespace CircuitSketch

/-- A number kept to a fixed number of binary digits. The finite ones are `mantissa` times two to
the power `exponent`; zero has a sign. -/
inductive Fraction
  | finite (negative : Bool) (mantissa : Nat) (exponent : Int)
  | infinite (negative : Bool)
  | undefined
deriving DecidableEq, Repr

namespace Fraction

/-- The number of binary digits of a mantissa. -/
def precision : Nat := 53

/-- The least exponent. -/
def leastExponent : Int := -1074

/-- The greatest exponent. -/
def greatestExponent : Int := 971

/-- Zero. -/
def zero (negative : Bool) : Fraction := finite negative 0 leastExponent

/-- A quotient rounded to the nearest whole number, and to the even one of two. -/
def nearestQuotient (n d : Nat) : Nat :=
  let q := n / d
  let r := n % d
  if 2 * r < d then q else if d < 2 * r then q + 1 else q + q % 2

/-- A quotient divided by two to the power `e`, as a quotient. -/
def scaled (n d : Nat) (e : Int) : Nat × Nat := (n * twoPow (-e).toNat, d * twoPow e.toNat)

/-- A mantissa with an exponent, which is infinite past the greatest exponent. -/
def ofMantissa (negative : Bool) (mantissa : Nat) (exponent : Int) : Fraction :=
  if mantissa = 0 then zero negative
  else if greatestExponent < exponent then infinite negative
  else finite negative mantissa exponent

/-- The fraction nearest to `n / d`. The exponent is first chosen one too small at most, so that the
quotient has one digit too many at most. -/
def ofQuotient (negative : Bool) (n d : Nat) : Fraction :=
  let small := max ((n.log2 : Int) - d.log2 - precision) leastExponent
  let (n₀, d₀) := scaled n d small
  let e := if n₀ < d₀ * twoPow precision then small else small + 1
  let (n₁, d₁) := scaled n d e
  let mantissa := nearestQuotient n₁ d₁
  if mantissa = twoPow precision then ofMantissa negative (twoPow (precision - 1)) (e + 1)
  else ofMantissa negative mantissa e

/-- The fraction nearest to `n` times two to the power `e`. -/
def ofScaled (negative : Bool) (n : Nat) (e : Int) : Fraction :=
  let (n, d) := scaled n 1 (-e)
  ofQuotient negative n d

/-- The number of decimal digits of a number. -/
def digitCount (n : Nat) : Nat := (toString n).length

/-- The fraction nearest to `digits` times ten to the power `exponent`. Powers far beyond the range
are not computed. -/
def ofDecimal (negative : Bool) (digits : Nat) (exponent : Int) : Fraction :=
  let size := (digitCount digits : Int) + exponent
  if digits = 0 ∨ size < -330 then zero negative
  else if 310 < size then infinite negative
  else ofQuotient negative (digits * Nat.pow 10 exponent.toNat) (Nat.pow 10 (-exponent).toNat)

/-- The same fraction with the opposite sign. -/
def negate : Fraction → Fraction
  | finite negative m e => finite (!negative) m e
  | infinite negative => infinite (!negative)
  | undefined => undefined

/-- A whole number as a fraction, with all of its digits. -/
def ofInt (n : Int) : Fraction := finite (decide (n < 0)) n.natAbs 0

/-- The fraction nearest to a number that is not below zero. -/
def ofNat (n : Nat) : Fraction := ofQuotient false n 1

/-- A mantissa with its sign. -/
def signed (negative : Bool) (mantissa : Nat) : Int := if negative then -mantissa else mantissa

/-- Two finite numbers as whole multiples of one power of two. -/
def aligned (a : Bool) (m : Nat) (e : Int) (b : Bool) (n : Nat) (f : Int) : Int × Int :=
  let low := min e f
  (signed a (m * twoPow (e - low).toNat), signed b (n * twoPow (f - low).toNat))

/-- The sum of two fractions. Opposite infinite ones have none. -/
def sum : Fraction → Fraction → Fraction
  | finite a m e, finite b n f =>
    let (x, y) := aligned a m e b n f
    if x + y = 0 then zero (a && b) else ofScaled (decide (x + y < 0)) (x + y).natAbs (min e f)
  | infinite a, infinite b => if a = b then infinite a else undefined
  | infinite a, finite .. => infinite a
  | finite .., infinite b => infinite b
  | _, _ => undefined

/-- The product of two fractions. Zero and an infinite one have none. -/
def product : Fraction → Fraction → Fraction
  | finite a m e, finite b n f => ofScaled (a != b) (m * n) (e + f)
  | infinite a, infinite b => infinite (a != b)
  | infinite a, finite b n _ => if n = 0 then undefined else infinite (a != b)
  | finite a m _, infinite b => if m = 0 then undefined else infinite (a != b)
  | _, _ => undefined

/-- Whether a number is less than another. No fraction is less or greater than an undefined one. -/
def less : Fraction → Fraction → Bool
  | finite a m e, finite b n f =>
    let (x, y) := aligned a m e b n f
    decide (x < y)
  | finite .., infinite b => !b
  | infinite a, finite .. => a
  | infinite a, infinite b => a && !b
  | _, _ => false

/-- Whether two fractions are the same number. Zero is the same with either sign, and the undefined
one is no number. -/
def equal : Fraction → Fraction → Bool
  | finite a m e, finite b n f =>
    let (x, y) := aligned a m e b n f
    decide (x = y)
  | infinite a, infinite b => a == b
  | _, _ => false

/-- The whole number that a fraction is equal to. -/
def whole? : Fraction → Option Int
  | finite negative m e =>
    let (n, d) := scaled m 1 (-e)
    if n % d = 0 then some (signed negative (n / d)) else none
  | infinite _ => none
  | undefined => none

end Fraction
end CircuitSketch
