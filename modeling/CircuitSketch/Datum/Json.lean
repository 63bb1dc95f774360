import CircuitSketch.Datum.Literal
import CircuitSketch.Text.Numeral

/-!
# Data as JSON

Data are read from JSON texts and written as such. A number with a point or an exponent is a
fraction, every other number is whole. The keys of an object are put in order, and a key that is
repeated has the last of its values. The infinite and the undefined fraction are written as words.

The `fuel` of a reader bounds its nesting and its steps; one more than the number of characters is
enough.
-/
namespace CircuitSketch.Json

open Text (digits?)

/-- What a reader yields: a value and the characters after it. -/
abbrev Read (α : Type) := Option (α × List Char)

/-- Drops blanks and line breaks. -/
def skipGap (cs : List Char) : List Char :=
  cs.dropWhile fun c => c = ' ' || c = '\t' || c = '\n' || c = '\r'

/-- The characters after a word, if they start with it. -/
def afterWord (word : String) (cs : List Char) : Option (List Char) :=
  if word.toList.isPrefixOf cs then some (cs.drop word.length) else none

/-- A code unit that is written with four hexadecimal digits. -/
def codeUnit? (cs : List Char) : Read Nat :=
  let code := cs.take 4
  if code.length = 4 then (digits? 16 code).map (·, cs.drop 4) else none

/-- The code point that code units stand for. Those beyond four digits take two units; half of such
a pair alone stands for itself. -/
def codeUnits (unit : Nat) (cs : List Char) : Nat × List Char :=
  if 0xd800 ≤ unit ∧ unit < 0xdc00 then
    match afterWord "\\u" cs >>= codeUnit? with
    | some (low, rest) =>
      if 0xdc00 ≤ low ∧ low < 0xe000 then
        (0x10000 + (unit - 0xd800) * 0x400 + (low - 0xdc00), rest)
      else (unit, cs)
    | none => (unit, cs)
  else (unit, cs)

/-- The characters that a backslash and one letter stand for. -/
def escapes : List (Char × Char) :=
  [('"', '"'), ('\\', '\\'), ('/', '/'), ('b', '\x08'), ('f', '\x0c'), ('n', '\n'), ('r', '\r'),
    ('t', '\t')]

/-- What comes after a backslash. -/
def escaped? : List Char → Read Nat
  | 'u' :: rest => (codeUnit? rest).map fun r => codeUnits r.1 r.2
  | c :: rest => (escapes.lookup c).map fun d => (d.toNat, rest)
  | [] => none

/-- The code points of a text up to its closing quote, after those that `acc` holds the other way
round. -/
def quotedText? : (fuel : Nat) → (acc : List Nat) → List Char → Read (List Nat)
  | 0, _, _ => none
  | _ + 1, acc, '"' :: rest => some (acc.reverse, rest)
  | fuel + 1, acc, '\\' :: rest =>
    match escaped? rest with
    | some (p, rest) => quotedText? fuel (p :: acc) rest
    | none => none
  | fuel + 1, acc, c :: rest => quotedText? fuel (c.toNat :: acc) rest
  | _ + 1, _, [] => none

/-- The digits after a point, if there is one. -/
def places? : List Char → Option (List Char) × List Char
  | '.' :: rest =>
    let digits := rest.takeWhile Char.isDigit
    (some digits, rest.drop digits.length)
  | cs => (none, cs)

/-- An exponent, if there is one. -/
def exponent? : List Char → Option Int × List Char
  | [] => (none, [])
  | c :: cs =>
    if c = 'e' ∨ c = 'E' then
      let (negative, rest) := Text.sign cs
      let digits := rest.takeWhile Char.isDigit
      ((digits? 10 digits).map (Fraction.signed negative), rest.drop digits.length)
    else (none, c :: cs)

/-- A number without its sign. -/
def number (negative : Bool) (cs : List Char) : Read Datum :=
  match afterWord "Infinity" cs with
  | some rest => some (.fraction (.infinite negative), rest)
  | none =>
    let whole := cs.takeWhile Char.isDigit
    let (places, rest) := places? (cs.drop whole.length)
    let (exponent, rest) := exponent? rest
    let digits := whole ++ places.getD []
    (digits? 10 digits).map fun n =>
      if places.isNone && exponent.isNone then (.int (Fraction.signed negative n), rest)
      else
        let power := exponent.getD 0 - (places.getD []).length
        (.fraction (.ofDecimal negative n power), rest)

/-- The words and what they stand for. -/
def words : List (String × Datum) :=
  [("null", .null), ("true", .bool true), ("false", .bool false), ("NaN", .undefined)]

/-- The first of the entries that have one key, in a list that is sorted by keys. -/
def firstOfEach (last : Option (List Nat)) : List (List Nat × Datum) → List (Datum × Datum)
  | [] => []
  | (key, d) :: rest =>
    if last = some key then firstOfEach last rest
    else (.ofPoints key, d) :: firstOfEach (some key) rest

/-- An object with its keys in order, from entries that come the other way round. -/
def ofEntries (reversed : List (List Nat × Datum)) : Datum :=
  .object (firstOfEach none (reversed.mergeSort fun a b => !decide (b.1 < a.1)))

mutual
/-- A datum. -/
def value? : (fuel : Nat) → List Char → Read Datum
  | 0, _ => none
  | fuel + 1, cs =>
    match skipGap cs with
    | '"' :: rest => (quotedText? (rest.length + 1) [] rest).map fun r => (.ofPoints r.1, r.2)
    | '[' :: rest =>
      match skipGap rest with
      | ']' :: rest => some (.list [], rest)
      | rest => (items? fuel [] rest).map fun r => (.list r.1, r.2)
    | '\x7b' :: rest =>
      match skipGap rest with
      | '\x7d' :: rest => some (.object [], rest)
      | rest => (entries? fuel [] rest).map fun r => (ofEntries r.1, r.2)
    | '-' :: rest => number true rest
    | cs =>
      let word := words.findSome? fun w => (afterWord w.1 cs).map (w.2, ·)
      word <|> number false cs

/-- The items of a list up to its closing bracket, after those that `acc` holds the other way
round. -/
def items? : (fuel : Nat) → (acc : List Datum) → List Char → Read (List Datum)
  | 0, _, _ => none
  | fuel + 1, acc, cs =>
    match value? fuel cs with
    | none => none
    | some (d, rest) =>
      match skipGap rest with
      | ',' :: rest => items? fuel (d :: acc) rest
      | ']' :: rest => some ((d :: acc).reverse, rest)
      | _ => none

/-- The entries of an object up to its closing brace, the other way round, after those of `acc`. -/
def entries? : (fuel : Nat) → (acc : List (List Nat × Datum)) → List Char →
    Read (List (List Nat × Datum))
  | 0, _, _ => none
  | fuel + 1, acc, cs =>
    match skipGap cs with
    | '"' :: rest =>
      match quotedText? (rest.length + 1) [] rest with
      | none => none
      | some (key, rest) =>
        match skipGap rest with
        | ':' :: rest =>
          match value? fuel rest with
          | none => none
          | some (d, rest) =>
            match skipGap rest with
            | ',' :: rest => entries? fuel ((key, d) :: acc) rest
            | '\x7d' :: rest => some ((key, d) :: acc, rest)
            | _ => none
        | _ => none
    | _ => none
end

/-- The datum that a JSON text holds. -/
def read (s : String) : Option Datum :=
  let cs := s.toList
  match value? (cs.length + 1) cs with
  | some (d, rest) => if (skipGap rest).isEmpty then some d else none
  | none => none

/-- One code point between quotes. -/
def pointText (p : Nat) : String :=
  match Text.charOf? p with
  | none => "\\u" ++ Text.hexDigits 4 p
  | some c =>
    if c = '"' ∨ c = '\\' then String.ofList ['\\', c]
    else if c < ' ' then "\\u" ++ Text.hexDigits 4 p
    else String.ofList [c]

/-- Code points between quotes. -/
def quotedPoints (ps : List Nat) : String := "\"" ++ String.join (ps.map pointText) ++ "\""

/-- A text between quotes. -/
def quoted (s : String) : String := quotedPoints (Text.points s)

/-- A fraction as a number, or as a word. -/
def fractionText : Fraction → String
  | .infinite negative => if negative then "-Infinity" else "Infinity"
  | .undefined => "NaN"
  | x => x.text

mutual
/-- A datum written as JSON. A key or a datum without a form of its own is written as a text. -/
def write : Datum → String
  | .null => "null"
  | .bool true => "true"
  | .bool false => "false"
  | .int n => toString n
  | .fraction x => fractionText x
  | .text s => quoted s
  | .torn ps => quotedPoints ps
  | .bytes bs => quoted (Text.quotedBytes bs)
  | .date d => quoted d.spoken
  | .list items => "[" ++ ",".intercalate (writeItems items) ++ "]"
  | .pair x y => "[" ++ write x ++ "," ++ write y ++ "]"
  | .set members => "[" ++ ",".intercalate (writeItems members) ++ "]"
  | .object entries => "\x7b" ++ ",".intercalate (writeEntries entries) ++ "\x7d"
  | .shared _ d => write d

/-- The items of a list written as JSON. -/
def writeItems : List Datum → List String
  | [] => []
  | d :: rest => write d :: writeItems rest

/-- The entries of an object written as JSON. -/
def writeEntries : List (Datum × Datum) → List String
  | [] => []
  | (key, d) :: rest => (quotedPoints key.displayPoints ++ ":" ++ write d) :: writeEntries rest
end

end CircuitSketch.Json
