import CircuitSketch.Fraction.Numeral
import CircuitSketch.Text.LowerCase
import CircuitSketch.Yaml.Fault

/-!
# Numbers of a document

A scalar is spelled like a number in one of a few ways, and its value is read from the spelling.
Underscores between the digits do not count. Digits with colons between them are in base sixty, as
in hours, minutes and seconds.
-/
namespace CircuitSketch.Yaml

open Text (digitValue? sign)

/-- Whether some characters are not empty and all of a kind. -/
def allOf (f : Char → Bool) (cs : List Char) : Bool := !cs.isEmpty && cs.all f

/-- Decimal digits and underscores. -/
def isDecimalPart (c : Char) : Bool := c.isDigit || c = '_'

/-- Whether something is spelled like a digit in base sixty. -/
def isSixtieth : List Char → Bool
  | [c] => c.isDigit
  | [c, d] => '0' ≤ c && c ≤ '5' && d.isDigit
  | _ => false

/-- Whether something is spelled like a number in base sixty with two digits or more. -/
def isBaseSixty (first : Char → Bool) (cs : List Char) : Bool :=
  match cs.splitOn ':' with
  | (c :: leading) :: second :: more =>
    first c && leading.all isDecimalPart && (second :: more).all isSixtieth
  | _ => false

/-- Whether something is spelled like a whole number: in base two after `0b`, in base sixteen after
`0x`, in base eight after a zero, in base ten, or in base sixty. -/
def isWhole (cs : List Char) : Bool :=
  let (_, cs) := sign cs
  let positive (c : Char) : Bool := '1' ≤ c && c ≤ '9'
  match cs with
  | ['0'] => true
  | '0' :: 'b' :: rest => allOf (fun c => c = '0' || c = '1' || c = '_') rest
  | '0' :: 'x' :: rest => allOf (fun c => (digitValue? 16 c).isSome || c = '_') rest
  | '0' :: rest => allOf (fun c => ('0' ≤ c && c ≤ '7') || c = '_') rest
  | c :: rest => (positive c && rest.all isDecimalPart) || isBaseSixty positive cs
  | [] => false

/-- Whether something is empty or spelled like an exponent, which always has a sign. -/
def isExponent : List Char → Bool
  | [] => true
  | e :: s :: digits =>
    (e = 'e' || e = 'E') && (s = '-' || s = '+') && allOf Char.isDigit digits
  | [_] => false

/-- Whether something is spelled like decimal places, with an exponent or without one. -/
def isPlaces (cs : List Char) : Bool := isExponent (cs.dropWhile isDecimalPart)

/-- Whether something is spelled like a fraction: with a point, in base ten or in base sixty, as an
infinite number, or as one without a value. -/
def isFraction (cs : List Char) : Bool :=
  let (_, unsigned) := sign cs
  let spelled := String.ofList cs
  let whole := unsigned.takeWhile (· ≠ '.')
  match cs, unsigned.dropWhile (· ≠ '.') with
  | '.' :: c :: places, _ =>
    (c.isDigit && isPlaces places) ||
      [".inf", ".Inf", ".INF", ".nan", ".NaN", ".NAN"].contains spelled
  | _, '.' :: places =>
    match whole with
    | [] => ["inf", "Inf", "INF"].contains (String.ofList places)
    | c :: rest =>
      (c.isDigit && rest.all isDecimalPart && isPlaces places) ||
        (isBaseSixty Char.isDigit whole && places.all isDecimalPart)
  | _, _ => false

/-- The number that digits in a base stand for. -/
def natural (base : Nat) (word : List Nat) : Except Fault Int :=
  (Text.readNumber base word).mapError .numeral

/-- The parts between colons. -/
def sixtieths (ps : List Nat) : List (List Nat) := ps.splitOn ':'.toNat

/-- A sign in front of some code points, if there is one, and the rest. -/
def signPoints (ps : List Nat) : Bool × List Nat :=
  match ps with
  | [] => (false, [])
  | p :: rest =>
    if p = '-'.toNat then (true, rest) else if p = '+'.toNat then (false, rest) else (false, ps)

/-- The code points of a number without the underscores between them. -/
def dropUnderscores (ps : List Nat) : List Nat := ps.filter (· ≠ '_'.toNat)

/-- The whole number that a scalar stands for. -/
def wholeValue (ps : List Nat) : Except Fault Int := do
  let (negative, ps) := signPoints (dropUnderscores ps)
  let n ←
    if ps.isEmpty then throw .noDigits
    else if ps = Text.points "0" then pure 0
    else if (Text.points "0b").isPrefixOf ps then natural 2 (ps.drop 2)
    else if (Text.points "0x").isPrefixOf ps then natural 16 (ps.drop 2)
    else if ps.head? = some '0'.toNat then natural 8 ps
    else do
      let parts ← (sixtieths ps).mapM (natural 10)
      pure (parts.foldl (fun n m => 60 * n + m) 0)
  pure (if negative then -n else n)

/-- The fraction that decimal digits stand for. -/
def decimal (word : List Nat) : Except Fault Fraction :=
  match Fraction.ofText? word with
  | some x => .ok x
  | none => .error (.badFraction word)

/-- The fraction that digits in base sixty stand for, the last ones of which are added first. -/
def sixtiethSum (parts : List Fraction) : Fraction :=
  (parts.reverse.foldl
    (fun (total, base) part =>
      (total.sum (part.product (Fraction.ofNat base)), base * 60))
    (Fraction.zero false, 1)).1

/-- The fraction that a scalar stands for. Of an undefined one only the word with a point in front
stands for the one that is the same everywhere; nothing stands for that. -/
def fractionValue (ps : List Nat) : Except Fault (Option Fraction) := do
  let ps := Text.lowerCase (dropUnderscores ps)
  let (negative, rest) := signPoints ps
  if ps.isEmpty then throw .noDigits
  if rest = Text.points ".nan" then return none
  let x ←
    if rest = Text.points ".inf" then pure (Fraction.infinite false)
    else if rest.contains ':'.toNat then sixtiethSum <$> (sixtieths rest).mapM decimal
    else decimal rest
  return some (if negative then x.negate else x)

end CircuitSketch.Yaml
