import CircuitSketch.Platform.Reading
import CircuitSketch.Yaml.Document

/-!
# Loading a platform

A document describes a platform if one is given. Otherwise a known platform is looked up by name;
for a name that is not known, a warning is given and the generic platform is used.
-/
namespace CircuitSketch

/-- Why a platform cannot be loaded. -/
inductive LoadError
  | unreadable (cause : Yaml.Fault)
  | unwritable (cause : Text.NumeralFault)
  | invalid (source : String) (rule : Rule)

/-- The message of a platform that cannot be loaded. -/
def LoadError.message : LoadError → String
  | unreadable cause => cause.message
  | unwritable cause => cause.message
  | invalid source rule => "Invalid config file " ++ source ++ ": " ++ rule.message

/-- The warning about a name that is not known. -/
def unknownPlatform (name : String) : String :=
  "No builtin architecture '" ++ name ++ "' (known: " ++ ", ".intercalate Platform.knownNames ++
    "), using generic"

namespace Platform

/-- A platform from data that came from a source. Every broken rule is put into words, also those
that are not reported. -/
def ofSource (source : String) (d : Datum) : Except LoadError Platform :=
  match Reading.platform d with
  | .ok p => .ok p
  | .error fs =>
    if fs.numbers.all Text.isWritable then .error (.invalid source fs.reported.rule)
    else .error (.unwritable .tooGreat)

/-- The platform of a name, and the warnings. No name, or an empty one, stands for the generic
platform. The known platforms are kept in the directory `home`. -/
def select (home : List String) (name : Option String) : Platform × List String :=
  match name with
  | none => (generic, [])
  | some name =>
    if name.isEmpty then (generic, [])
    else
      match named? home name with
      | some p => (p, [])
      | none => (generic, [unknownPlatform name])

/-- The platform of a document with its source, or else of a name, and the warnings. -/
def load (home : List String) (document : Option (String × String)) (name : Option String) :
    Except LoadError Platform × List String :=
  match document with
  | some (source, text) =>
    match Yaml.document text with
    | .ok d => (ofSource source d, [])
    | .error cause => (.error (.unreadable cause), [])
  | none =>
    let (p, warnings) := select home name
    (.ok p, warnings)

end Platform
end CircuitSketch
