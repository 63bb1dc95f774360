import CircuitSketch.Text.Points
import CircuitSketch.Yaml.Date
import CircuitSketch.Yaml.Number

/-!
# What the parts of a document stand for

Every part of a document has a tag that tells what it stands for: the one that it is given, or for a
scalar the one that its spelling suggests.
-/
namespace CircuitSketch.Yaml

/-- What a part of a document stands for. -/
inductive Tag
  | null
  | truth
  | whole
  | fraction
  | bytes
  | date
  | text
  | list
  | map
  | set
  | pairs
  | merge
  | value
  | unknown
deriving DecidableEq, Repr

namespace Tag

/-- The namespace of the tags that every document knows. -/
def common : List Char := "tag:yaml.org,2002:".toList

/-- The tags of the common namespace. -/
def names : List (String × Tag) :=
  [("null", null), ("bool", truth), ("int", whole), ("float", fraction), ("binary", bytes),
    ("timestamp", date), ("str", text), ("seq", list), ("map", map), ("set", set),
    ("omap", pairs), ("pairs", pairs), ("merge", merge), ("value", value)]

/-- The tag of a full name. -/
def ofName (name : List Char) : Tag :=
  if common.isPrefixOf name then
    (names.lookup (String.ofList (name.drop common.length))).getD unknown
  else unknown

/-- The spellings of nothing. -/
def nullWords : List String := ["", "~", "null", "Null", "NULL"]

/-- The spellings of truth. -/
def trueWords : List String := ["yes", "Yes", "YES", "true", "True", "TRUE", "on", "On", "ON"]

/-- The spellings of falsehood. -/
def falseWords : List String := ["no", "No", "NO", "false", "False", "FALSE", "off", "Off", "OFF"]

/-- The signs of tags, anchors and aliases, which stand for nothing by themselves. -/
def signWords : List String := ["!", "&", "*"]

/-- The tag that a spelling suggests. -/
def ofWord (s : String) : Tag :=
  let cs := s.toList
  if trueWords.contains s || falseWords.contains s then truth
  else if isFraction cs then fraction
  else if isWhole cs then whole
  else if s = "<<" then merge
  else if nullWords.contains s then null
  else if Date.isDate cs then date
  else if s = "=" then value
  else if signWords.contains s then unknown
  else text

/-- Some code points without a line break at their end, unless it is all there is. -/
def dropLastBreak (ps : List Nat) : List Nat :=
  if 1 < ps.length ∧ ps.getLast? = some '\n'.toNat then ps.dropLast else ps

/-- The tag that the spelling of a scalar suggests. A line break at its end does not count. -/
def ofSpelling (ps : List Nat) : Tag :=
  match Text.ofPoints? (dropLastBreak ps) with
  | some s => ofWord s
  | none => text

end Tag
end CircuitSketch.Yaml
