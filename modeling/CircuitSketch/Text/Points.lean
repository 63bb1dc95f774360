/-!
# Code points

A text is a list of code points. Some points are the halves of a pair in another encoding and stand
for no character; a list that holds one of them is not a text of characters.
-/
namespace CircuitSketch.Text

/-- The code points of a text. -/
def points (s : String) : List Nat := s.toList.map Char.toNat

/-- The character of a code point, unless there is none. -/
def charOf? (point : Nat) : Option Char :=
  if h : point.isValidChar then some (Char.ofNatAux point h) else none

/-- The text of some code points, if each of them is a character. -/
def ofPoints? (ps : List Nat) : Option String := (ps.mapM charOf?).map String.ofList

/-- The character that stands for a code point without one. -/
def replacement : Char := '\ufffd'

/-- The text of some code points, where another character stands for those without one. -/
def ofPoints (ps : List Nat) : String :=
  String.ofList (ps.map fun p => (charOf? p).getD replacement)

end CircuitSketch.Text
