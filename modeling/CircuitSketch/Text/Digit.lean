import CircuitSketch.Text.PointRange

/-!
# Digits and blanks of all scripts

Many scripts have decimal digits of their own, ten in a row, and there are several kinds of blanks.
Numbers may be written with any of them.
-/
namespace CircuitSketch.Text

/-- The zeros of all scripts. The other nine digits follow each. -/
def zeros : Array Nat :=
  #[48, 1632, 1776, 1984, 2406, 2534, 2662, 2790, 2918, 3046, 3174, 3302, 3430, 3558, 3664, 3792,
   3872, 4160, 4240, 6112, 6160, 6470, 6608, 6784, 6800, 6992, 7088, 7232, 7248, 42528, 43216,
   43264, 43472, 43504, 43600, 44016, 65296, 66720, 68912, 69734, 69872, 69942, 70096, 70384,
   70736, 70864, 71248, 71360, 71472, 71904, 72016, 72784, 73040, 73120, 92768, 92864, 93008,
   120782, 120792, 120802, 120812, 120822, 123200, 123632, 125264, 130032]

/-- The value of a decimal digit. -/
def decimalDigit? (p : Nat) : Option Nat :=
  match lastStarting? id zeros p with
  | some start => if p < start + 10 then some (p - start) else none
  | none => none

/-- Whether a code point is a blank of ASCII. -/
def isPlainBlank (p : Nat) : Bool := (9 ≤ p && p ≤ 13) || p = 32

/-- The blanks outside ASCII. -/
def furtherBlanks : PointRanges :=
  #[(0x85, 0x85), (0xa0, 0xa0), (0x1680, 0x1680), (0x2000, 0x200a), (0x2028, 0x2029),
   (0x202f, 0x202f), (0x205f, 0x205f), (0x3000, 0x3000)]

/-- The question mark, which no number contains. -/
def unknownPoint : Nat := 0x3f

/-- A code point in ASCII: a digit or a blank of any script becomes a plain one. -/
def plainPoint (p : Nat) : Nat :=
  if p < 0x80 then p
  else
    match decimalDigit? p with
    | some d => '0'.toNat + d
    | none => if inRanges furtherBlanks p then ' '.toNat else unknownPoint

/-- A text in ASCII, without the blanks in front of it. -/
def plainText (ps : List Nat) : List Nat := (ps.map plainPoint).dropWhile isPlainBlank

end CircuitSketch.Text
