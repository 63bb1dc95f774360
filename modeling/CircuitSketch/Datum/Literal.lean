import CircuitSketch.Datum.Basic
import CircuitSketch.Text.Quoted

/-!
# Data in messages

A datum has a literal form: lists between brackets, objects and sets between braces, texts between
quotes. Inside itself a datum is only hinted at by three dots.

A message that shows a whole number may turn out too long to be written, so the whole numbers of a
literal form are known as well.
-/
namespace CircuitSketch

/-- A part of a literal form. -/
inductive Piece
  | words (s : String)
  | number (n : Int)

namespace Piece

/-- A part as it is written. -/
def text : Piece → String
  | words s => s
  | number n => toString n

/-- The number that a part is. -/
def number? : Piece → Option Int
  | words _ => none
  | number n => some n

/-- Items between an opening and a closing mark. -/
def enclosed (opening closing : String) (items : List (List Piece)) : List Piece :=
  words opening :: [words ", "].intercalate items ++ [words closing]

end Piece

namespace Datum

/-- What stands for a datum inside itself. -/
def ellipsis : Datum → String
  | list _ => "[...]"
  | object _ => "\x7b...\x7d"
  | set _ => "set(...)"
  | pair _ _ => "(...)"
  | _ => "..."

mutual
/-- The literal form of a datum inside the data of the marks `around`. -/
def pieces (around : List Nat) : Datum → List Piece
  | null => [.words "None"]
  | bool true => [.words "True"]
  | bool false => [.words "False"]
  | int n => [.number n]
  | fraction x => [.words x.text]
  | text s => [.words (Text.quoted s)]
  | torn ps => [.words (Text.quotedPoints ps)]
  | bytes bs => [.words (Text.quotedBytes bs)]
  | date d => [.words d.literal]
  | list items => Piece.enclosed "[" "]" (itemPieces around items)
  | pair x y => Piece.enclosed "(" ")" [pieces around x, pieces around y]
  | set [] => [.words "set()"]
  | set members => Piece.enclosed "\x7b" "\x7d" (itemPieces around members)
  | object entries => Piece.enclosed "\x7b" "\x7d" (entryPieces around entries)
  | shared mark d =>
    if around.contains mark then [.words d.bare.ellipsis] else pieces (mark :: around) d

/-- The literal forms of items. -/
def itemPieces (around : List Nat) : List Datum → List (List Piece)
  | [] => []
  | d :: rest => pieces around d :: itemPieces around rest

/-- The literal forms of entries. -/
def entryPieces (around : List Nat) : List (Datum × Datum) → List (List Piece)
  | [] => []
  | (key, d) :: rest =>
    (pieces around key ++ .words ": " :: pieces around d) :: entryPieces around rest
end

/-- A datum written out. -/
def literal (d : Datum) : String := String.join ((d.pieces []).map Piece.text)

/-- The whole numbers that are written where a datum is written out. -/
def numbers (d : Datum) : List Int := (d.pieces []).filterMap Piece.number?

/-- A datum inside a sentence: a text stands without its quotes, and a date as it is spoken. -/
def displayPoints (d : Datum) : List Nat :=
  match d.bare with
  | text s => Text.points s
  | torn ps => ps
  | date t => Text.points t.spoken
  | _ => Text.points d.literal

/-- A datum inside a sentence, with another character for those that are none. -/
def display (d : Datum) : String := Text.ofPoints d.displayPoints

end Datum
end CircuitSketch
