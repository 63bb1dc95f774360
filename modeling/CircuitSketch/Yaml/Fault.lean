import CircuitSketch.Calendar.Date
import CircuitSketch.Text.Numeral

/-!
# Why a document holds no datum

A text may break the grammar of documents, or hold a scalar that is spelled like a value and has
none: a number without digits, or a day that is not in the calendar.
-/
namespace CircuitSketch.Yaml

/-- Why a text holds no datum. -/
inductive Fault
  | malformed
  | noCharacter
  | numeral (cause : Text.NumeralFault)
  | badFraction (word : List Nat)
  | noDigits
  | truthWord (word : List Nat)
  | calendar (cause : CalendarFault)
deriving DecidableEq, Repr

/-- The message of a fault. Breaking the grammar has none of its own. -/
def Fault.message : Fault → String
  | malformed => ""
  | noCharacter => "chr() arg not in range(0x110000)"
  | numeral cause => cause.message
  | badFraction word => "could not convert string to float: " ++ Text.quotedPoints word
  | noDigits => ""
  | truthWord word => Text.quotedPoints word
  | calendar cause => cause.message

end CircuitSketch.Yaml
