import CircuitSketch.Text.Digit
import CircuitSketch.Text.Quoted

/-!
# Whole numbers as text

Numbers are read from their digits, in bases up to sixteen. Decimal texts of more than `maxDigits`
digits are neither read nor written; bases that are a power of two have no such limit.
-/
namespace CircuitSketch.Text

/-- The number of digits that a decimal text may have. -/
def maxDigits : Nat := 4300

/-- Why a text is not read as a number, or a number is not written as a text. -/
inductive NumeralFault
  | notANumber (base : Nat) (word : List Nat)
  | tooManyDigits (count : Nat)
  | tooGreat
deriving DecidableEq, Repr

/-- The number of characters that a message shows of a text that is no number. -/
def shownLength : Nat := 200

/-- The message of a number that is not read or written. -/
def NumeralFault.message : NumeralFault → String
  | notANumber base word =>
    s!"invalid literal for int() with base {base}: " ++
      String.ofList ((quotedPoints word).toList.take shownLength)
  | tooManyDigits count =>
    s!"Exceeds the limit ({maxDigits} digits) for integer string conversion: value has " ++
      s!"{count} digits; use sys.set_int_max_str_digits() to increase the limit"
  | tooGreat =>
    s!"Exceeds the limit ({maxDigits} digits) for integer string conversion; " ++
      "use sys.set_int_max_str_digits() to increase the limit"

/-- The value of a digit in a base up to sixteen. -/
def digitValue? (base : Nat) (c : Char) : Option Nat :=
  let v :=
    if '0' ≤ c ∧ c ≤ '9' then c.toNat - '0'.toNat
    else if 'a' ≤ c ∧ c ≤ 'f' then c.toNat - 'a'.toNat + 10
    else if 'A' ≤ c ∧ c ≤ 'F' then c.toNat - 'A'.toNat + 10
    else base
  if v < base then some v else none

/-- The number that digits stand for, of which there has to be one. -/
def digits? (base : Nat) (cs : List Char) : Option Nat :=
  if cs.isEmpty then none
  else cs.foldl (fun n c => n >>= fun n => (digitValue? base c).map (base * n + ·)) (some 0)

/-- A sign in front of a number, if there is one, and the rest. -/
def sign : List Char → Bool × List Char
  | '-' :: rest => (true, rest)
  | '+' :: rest => (false, rest)
  | cs => (false, cs)

/-- The letters that may follow a zero in front of a number in a base. -/
def baseLetters (base : Nat) : List Char :=
  if base = 2 then ['b', 'B'] else if base = 8 then ['o', 'O'] else
    if base = 16 then ['x', 'X'] else []

/-- The characters after the mark of a base, if it is there. An underscore may end the mark. -/
def dropBase (base : Nat) : List Char → List Char
  | '0' :: c :: rest =>
    if (baseLetters base).contains c then
      match rest with
      | '_' :: rest => rest
      | rest => rest
    else '0' :: c :: rest
  | cs => cs

/-- Whether each underscore stands between two digits, given what digits and underscores come after
the character `last`. -/
def isGrouped (last : Char) : List Char → Bool
  | [] => last ≠ '_'
  | c :: rest => !(last = '_' && c = '_') && isGrouped c rest

/-- The number that a text stands for. Blanks are allowed around it, a sign and the mark of the base
in front, and an underscore between two digits. Digits and blanks may be of any script. -/
def readNumber (base : Nat) (word : List Nat) : Except NumeralFault Int :=
  let invalid : Except NumeralFault Int := .error (.notANumber base word)
  let (negative, cs) := sign ((plainText word).map Char.ofNat)
  let cs := dropBase base cs
  let isPart (c : Char) : Bool := (digitValue? base c).isSome || c = '_'
  let part := cs.takeWhile isPart
  let rest := cs.dropWhile isPart
  let digits := part.filter (· ≠ '_')
  if !isGrouped '_' part then invalid
  else if base = 10 ∧ maxDigits < digits.length then .error (.tooManyDigits digits.length)
  else if !rest.all fun c => isPlainBlank c.toNat then invalid
  else
    match digits? base digits with
    | none => invalid
    | some n => .ok (if negative then -n else n)

/-- The number that a decimal text stands for. -/
def readDecimal (s : String) : Except NumeralFault Int := readNumber 10 (points s)

/-- Whether a number has a decimal text. -/
def isWritable (n : Int) : Bool := decide (n.natAbs < Nat.pow 10 maxDigits)

/-- A number as a decimal text. -/
def writeDecimal (n : Int) : Except NumeralFault String :=
  if isWritable n then .ok (toString n) else .error .tooGreat

/-- A message that shows some numbers, all of which have to have a decimal text. -/
def report (numbers : List Int) (message : String) : Except NumeralFault String :=
  if numbers.all isWritable then .ok message else .error .tooGreat

end CircuitSketch.Text
