import CircuitSketch.Fraction.Basic

/-!
# Fractions as text

A fraction is written with the fewest decimal digits that read back as the same fraction, and of
those with the nearest ones. The digits are positional while the point stands near them, and in
scientific form otherwise; a whole number keeps a zero after the point.
-/
namespace CircuitSketch.Fraction

/-- Digits and the power of ten that scales them. -/
structure Decimal where
  digits : Nat
  exponent : Int
deriving DecidableEq, Repr

namespace Decimal

/-- The fraction that a decimal reads as. -/
def read (d : Decimal) : Fraction := ofDecimal false d.digits d.exponent

/-- Drops trailing zeros, at most `fuel` of them. -/
def trim : (fuel : Nat) → Decimal → Decimal
  | 0, d => d
  | fuel + 1, d =>
    if d.digits % 10 = 0 ∧ d.digits ≠ 0 then trim fuel ⟨d.digits / 10, d.exponent + 1⟩ else d

end Decimal

/-- The power of ten just above the quotient `n / d`: it is below that power, and not below a tenth
of it. -/
def leadingPower (n d : Nat) : Int :=
  if d ≤ n then digitCount (n / d) else 1 - (digitCount (d / n) : Int)

/-- The decimal with a given number of digits that reads as `x`, which is the quotient `n / d`: of
the two next to `x` the one that does, the nearer one if both do, and the even one if both are
equally near. -/
def withDigits? (x : Fraction) (n d count : Nat) : Option Decimal :=
  let power := leadingPower n d - count
  let num := n * Nat.pow 10 (-power).toNat
  let den := d * Nat.pow 10 power.toNat
  let below : Decimal := ⟨num / den, power⟩
  let above : Decimal := ⟨num / den + 1, power⟩
  match decide (below.read = x), decide (above.read = x) with
  | true, true => some ⟨nearestQuotient num den, power⟩
  | true, false => some below
  | false, true => some above
  | false, false => none

/-- The shortest decimal of a finite fraction above zero. Seventeen digits are always enough; the
exact value stands in for a decimal that is not found. -/
def shortest (mantissa : Nat) (exponent : Int) : Decimal :=
  let (n, d) := scaled mantissa 1 (-exponent)
  let found := (List.range' 1 17).findSome? (withDigits? (finite false mantissa exponent) n d)
  let exact : Decimal := ⟨n * Nat.pow 5 (-exponent).toNat, min exponent 0⟩
  let best := found.getD exact
  best.trim (digitCount best.digits)

/-- The leading powers of ten that are written positionally: from this one … -/
def leastPositional : Int := -4

/-- … up to but without this one. -/
def positionalLimit : Int := 16

/-- Zeros. -/
def zeros (count : Nat) : String := String.ofList (List.replicate count '0')

/-- Digits in scientific form, with a leading power of ten. -/
def scientific (digits : List Char) (power : Int) : String :=
  let exponent := toString power.natAbs
  String.ofList (digits.take 1) ++
    (if digits.length = 1 then "" else "." ++ String.ofList (digits.drop 1)) ++
    (if power < 0 then "e-" else "e+") ++
    (if exponent.length < 2 then "0" ++ exponent else exponent)

/-- Digits in positional form, with a leading power of ten. -/
def positional (digits : List Char) (power : Int) : String :=
  if power < 0 then "0." ++ zeros (power.natAbs - 1) ++ String.ofList digits
  else
    let count := power.toNat + 1
    String.ofList (digits.take count) ++ zeros (count - digits.length) ++ "." ++
      (if digits.length ≤ count then "0" else String.ofList (digits.drop count))

/-- A decimal above zero as text. -/
def Decimal.text (d : Decimal) : String :=
  let digits := (toString d.digits).toList
  let power := (digits.length : Int) - 1 + d.exponent
  if leastPositional ≤ power ∧ power < positionalLimit then positional digits power
  else scientific digits power

/-- The sign of a number as text. -/
def signText (negative : Bool) : String := if negative then "-" else ""

/-- A fraction as text. -/
def text : Fraction → String
  | finite negative 0 _ => signText negative ++ "0.0"
  | finite negative m e => signText negative ++ (shortest m e).text
  | infinite negative => signText negative ++ "inf"
  | undefined => "nan"

end CircuitSketch.Fraction
