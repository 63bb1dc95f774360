import CircuitSketch.Fraction.Basic
import CircuitSketch.Text.Numeral

/-!
# Fractions as text

A fraction is read from decimal digits, with a point and an exponent or without, or from one of the
words for an infinite and for the undefined fraction.
-/
namespace CircuitSketch.Fraction

open Text (digits? sign)

/-- The digits behind a point, if there is one, and the rest. -/
def places : List Char → List Char × List Char
  | '.' :: rest => (rest.takeWhile Char.isDigit, rest.dropWhile Char.isDigit)
  | cs => ([], cs)

/-- The exponent that some characters are; nothing at all is zero. -/
def exponent? : List Char → Option Int
  | [] => some 0
  | c :: rest =>
    if c = 'e' ∨ c = 'E' then
      let (negative, digits) := sign rest
      (digits? 10 digits).map (signed negative)
    else none

/-- The words that are read as a fraction, in small letters. -/
def words (negative : Bool) : List (String × Fraction) :=
  [("inf", infinite negative), ("infinity", infinite negative), ("nan", undefined)]

/-- The fraction that a text stands for. Blanks are allowed around it and a sign in front, and
digits and blanks may be of any script. -/
def ofText? (ps : List Nat) : Option Fraction :=
  let cs := (Text.plainText ps).map Char.ofNat
  let cs := (cs.reverse.dropWhile fun c => Text.isPlainBlank c.toNat).reverse
  let (negative, cs) := sign cs
  match (words negative).lookup (String.ofList (cs.map Char.toLower)) with
  | some x => some x
  | none =>
    let whole := cs.takeWhile Char.isDigit
    let (after, rest) := places (cs.dropWhile Char.isDigit)
    match digits? 10 (whole ++ after), exponent? rest with
    | some n, some e => some (ofDecimal negative n (e - after.length))
    | _, _ => none

end CircuitSketch.Fraction
