import CircuitSketch.Calendar.Date
import CircuitSketch.Text.Numeral

/-!
# Days and times of a document

A scalar may name a day, or a point in time on a day, with a time zone or without one.
-/
namespace CircuitSketch.Date

open Text (digits?)

/-- Reads at least `least` and at most `most` decimal digits, as many as there are. -/
def someDigits? (least most : Nat) (cs : List Char) : Option (Nat × List Char) :=
  let taken := (cs.take most).takeWhile Char.isDigit
  if taken.length < least then none else (digits? 10 taken).map (·, cs.drop taken.length)

/-- Reads one certain character. -/
def expect? (c : Char) : List Char → Option (List Char)
  | d :: rest => if c = d then some rest else none
  | [] => none

/-- Reads the part of a second after the point, in millionths. Further digits do not count. -/
def readMicro (cs : List Char) : Nat × List Char :=
  match cs with
  | '.' :: rest =>
    let taken := rest.takeWhile Char.isDigit
    let places := (taken ++ List.replicate 6 '0').take 6
    ((digits? 10 places).getD 0, rest.drop taken.length)
  | cs => (0, cs)

/-- Reads a time zone up to the end. -/
def readZone? (cs : List Char) : Option (Option Int) :=
  match cs.dropWhile isGap with
  | [] => if cs.isEmpty then some none else none
  | ['Z'] => some (some 0)
  | c :: rest =>
    if c = '+' || c = '-' then do
      let (hour, rest) ← someDigits? 1 2 rest
      let minute ←
        if rest.isEmpty then pure 0
        else do
          let (minute, rest) ← expect? ':' rest >>= someDigits? 2 2
          if rest.isEmpty then pure minute else none
      let offset : Int := 3600 * hour + 60 * minute
      pure (some (if c = '-' then -offset else offset))
    else none
where
  isGap (c : Char) : Bool := c = ' ' || c = '\t'

/-- Reads a time of day up to the end. -/
def readTime? (cs : List Char) : Option TimeOfDay := do
  let (hour, rest) ← someDigits? 1 2 cs
  let (minute, rest) ← expect? ':' rest >>= someDigits? 2 2
  let (second, rest) ← expect? ':' rest >>= someDigits? 2 2
  let (micro, rest) := readMicro rest
  let zone ← readZone? rest
  pure ⟨hour, minute, second, micro, zone⟩

/-- The characters of a time of day that follows a day: after the letter `T`, or after blanks. -/
def afterDay : List Char → Option (List Char)
  | [] => none
  | c :: rest =>
    if c = 'T' || c = 't' then some rest
    else if c = ' ' || c = '\t' then some (rest.dropWhile fun d => d = ' ' || d = '\t')
    else none

/-- The date that a scalar spells. -/
def ofChars? (cs : List Char) : Option Date := do
  let (year, rest) ← someDigits? 4 4 cs
  let (month, rest) ← expect? '-' rest >>= someDigits? 1 2
  let (day, rest) ← expect? '-' rest >>= someDigits? 1 2
  if rest.isEmpty then pure ⟨year, month, day, none⟩
  else do
    let time ← afterDay rest >>= readTime?
    pure ⟨year, month, day, some time⟩

/-- Whether something is spelled like a date. A day without a time has all of its digits. -/
def isDate (cs : List Char) : Bool :=
  match ofChars? cs with
  | some d => d.time.isSome || cs.length = 10
  | none => false

end CircuitSketch.Date
