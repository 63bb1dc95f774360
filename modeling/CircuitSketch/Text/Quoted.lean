import CircuitSketch.Text.Points
import CircuitSketch.Text.Printable

/-!
# Quoted text

Messages show a text between quotes. Single quotes are the rule; double quotes are used when the
text holds a single quote and no double one, so that as little as possible is escaped. A code point
without a visible form is written in hexadecimal, in the shortest of the three fixed lengths that
holds it.
-/
namespace CircuitSketch.Text

/-- The last `width` hexadecimal digits of a number, most significant first. -/
def hexDigits (width n : Nat) : String :=
  match width with
  | 0 => ""
  | width + 1 => (hexDigits width (n / 16)).push (Nat.digitChar (n % 16))

/-- A code point by its number, in the shortest of the three lengths that holds it. -/
def numbered (p : Nat) : String :=
  if p < 0x100 then "\\x" ++ hexDigits 2 p
  else if p < 0x10000 then "\\u" ++ hexDigits 4 p
  else "\\U" ++ hexDigits 8 p

/-- A code point inside quotes of the given kind, where `isShown` tells which are shown as
themselves. -/
def escapeWith (isShown : Nat → Bool) (quote : Char) (p : Nat) : String :=
  match charOf? p with
  | none => numbered p
  | some c =>
    if c = quote ∨ c = '\\' then String.ofList ['\\', c]
    else if c = '\n' then "\\n"
    else if c = '\t' then "\\t"
    else if c = '\r' then "\\r"
    else if isShown p then String.ofList [c]
    else numbered p

/-- The quote that encloses a text: double exactly when that avoids an escape. -/
def quoteFor (ps : List Nat) : Char :=
  if ps.contains '\x27'.toNat ∧ ¬ ps.contains '"'.toNat then '"' else '\x27'

/-- Code points between quotes, where `isShown` tells which are shown as themselves. -/
def quotedWith (isShown : Nat → Bool) (ps : List Nat) : String :=
  let quote := quoteFor ps
  let mark := String.ofList [quote]
  mark ++ String.join (ps.map (escapeWith isShown quote)) ++ mark

/-- Code points between quotes. -/
def quotedPoints (ps : List Nat) : String := quotedWith isPrintable ps

/-- A text between quotes. -/
def quoted (s : String) : String := quotedPoints (points s)

/-- Whether a byte is shown as a character. -/
def isShownByte (b : Nat) : Bool := 0x20 ≤ b && b < 0x7f

/-- Bytes between quotes. Those that are ASCII characters are shown as such. -/
def quotedBytes (bytes : List Nat) : String := "b" ++ quotedWith isShownByte bytes

/-- Items between square brackets, separated by a comma and a blank. -/
def bracketed (items : List String) : String :=
  "[" ++ ", ".intercalate items ++ "]"

/-- A list of names, each quoted. -/
def nameList (names : List String) : String :=
  bracketed (names.map quoted)

/-- The distinct names of a list in code point order. -/
def sortedNames (names : List String) : List String :=
  (names.eraseDups).mergeSort fun a b => decide (a ≤ b)

end CircuitSketch.Text
