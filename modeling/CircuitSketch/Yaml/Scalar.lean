import CircuitSketch.Datum.Basic
import CircuitSketch.Text.Base64
import CircuitSketch.Yaml.Tag

/-!
# What scalars stand for

A scalar stands for a datum without parts, which its tag and its contents decide.
-/
namespace CircuitSketch.Yaml

/-- The words for truth values, in small letters. -/
def truthWords : List (String × Bool) :=
  [("yes", true), ("no", false), ("true", true), ("false", false), ("on", true), ("off", false)]

/-- The truth value of a word. -/
def truthDatum (ps : List Nat) : Except Fault Datum :=
  let word := Text.lowerCase ps
  match Text.ofPoints? word >>= fun s => truthWords.lookup s with
  | some b => .ok (.bool b)
  | none => .error (.truthWord word)

/-- The fraction of a scalar with a number. An undefined fraction that is not the usual one carries
a mark of its own. -/
def fractionDatum (number : Nat) (ps : List Nat) : Except Fault Datum := do
  match ← fractionValue ps with
  | none => return .undefined
  | some .undefined => return .shared (number + 1) (.fraction .undefined)
  | some x => return .fraction x

/-- The bytes that letters stand for. -/
def bytesDatum (ps : List Nat) : Except Fault Datum :=
  if ps.all (· < 0x80) then
    match Text.ofPoints? ps >>= fun s => Text.lettersToBytes? s.toList with
    | some bytes => .ok (.bytes bytes)
    | none => .error .malformed
  else .error .malformed

/-- The day or the point in time of a scalar. -/
def dateDatum (ps : List Nat) : Except Fault Datum :=
  match Text.ofPoints? (Tag.dropLastBreak ps) >>= fun s => Date.ofChars? s.toList with
  | some d =>
    match d.fault? with
    | some cause => .error (.calendar cause)
    | none => .ok (.date d)
  | none => .error .malformed

/-- The datum of a scalar with a number. -/
def scalarDatum (number : Nat) (tag : Tag) (ps : List Nat) : Except Fault Datum :=
  match tag with
  | .null => .ok .null
  | .truth => truthDatum ps
  | .whole => (wholeValue ps).map .int
  | .fraction => fractionDatum number ps
  | .bytes => bytesDatum ps
  | .date => dateDatum ps
  | .text => .ok (.ofPoints ps)
  | _ => .error .malformed

end CircuitSketch.Yaml
