import CircuitSketch.Expr.Checked
import CircuitSketch.Platform.Basic

/-!
# Requests for primitives

A request names a kind of primitive and gives it parameters. Which requests can be met, and how,
depends on the platform. The reasons to turn a request down, and to turn down what is built from
several requests, are collected here.
-/
namespace CircuitSketch

/-- A kind of primitive and its parameters, in order. -/
structure Request where
  kind : String
  parameters : List (String × Datum)

namespace Request

/-- A request as it appears in messages. -/
def text (r : Request) : String :=
  r.kind ++ "(" ++
    ", ".intercalate (r.parameters.map fun p => p.1 ++ "=" ++ p.2.display) ++ ")"

/-- A lookup table with a number of inputs. -/
def lut (inputs : Nat) : Request := ⟨"LUT", [("num_inputs", .int inputs)]⟩

/-- A multiplexer with a number of inputs. -/
def mux (inputs : Nat) : Request := ⟨"MUX", [("num_inputs", .int inputs)]⟩

/-- A carry chain of a width. -/
def carry (width : Datum) : Request := ⟨"carry", [("width", width)]⟩

end Request

/-- Why a platform cannot provide something at all. -/
inductive Unsupported
  | notProvided (platform : String) (r : Request)
  | missingParameter (r : Request) (name : String)
  | badParameter (r : Request) (name : String)
  | lutTooWide (platform : String) (inputs : Nat) (largest : Count) (r : Request)
  | narrowMux (r : Request)
  | tooManyRows (platform : String) (largest : Count) (rows : Int)
  | windowTooSmall (platform : String) (window : Count)

/-- The message of something that cannot be provided. -/
def Unsupported.message : Unsupported → String
  | notProvided platform r => platform ++ " does not provide " ++ r.text
  | missingParameter r name => r.text ++ " is missing parameter '" ++ name ++ "'"
  | badParameter r name => r.text ++ ": '" ++ name ++ "' must be a positive integer"
  | lutTooWide platform inputs largest r =>
    platform ++ s!": no LUT with {inputs} inputs (largest is {largest.text}) for " ++ r.text
  | narrowMux r => r.text ++ ": a mux needs at least 2 inputs"
  | tooManyRows platform largest rows =>
    platform ++ s!": largest LUT has {largest.text} inputs, cannot pack {rows} rows"
  | windowTooSmall platform window =>
    platform ++ s!": a {window.text}-bit window cannot reduce a row"

/-- Why a given program does not fit. -/
inductive Mismatch
  | kind (r : Request) (given : String)
  | lutInputs (r : Request) (inputs : Int)
  | muxInputs (r : Request) (inputs : Int)
  | hardMux (r : Request)
  | carryWidth (r : Request) (width : Int)
  | windows (given : Nat) (needed : Count)
  | template (name expected given : String)

/-- The message of a program that does not fit. -/
def Mismatch.message : Mismatch → String
  | kind r given => r.text ++ ": got internal data of kind '" ++ given ++ "'"
  | lutInputs r inputs => r.text ++ s!": internal data is for a {inputs}-input LUT"
  | muxInputs r inputs => r.text ++ s!": internal data is for a {inputs}-input mux"
  | hardMux r => r.text ++ ": internal data belongs to a hard mux"
  | carryWidth r width => r.text ++ s!": internal data is for a {width}-bit carry"
  | windows given needed =>
    s!"densely_pack: internal data has {given} windows, row needs {needed.text}"
  | template name expected given => name ++ " sketch expects " ++ expected ++ ", got " ++ given

/-- Why a number of inputs is wrong. -/
inductive Arity
  | noRows
  | exactly (template : String) (required : Nat) (given : Datum)
  | noInputs (template : String)
  | count (template : String) (given : Nat) (stated : Datum)

/-- The message of a wrong number of inputs. -/
def Arity.message : Arity → String
  | noRows => "densely_pack needs at least one row"
  | exactly template required given =>
    template ++ s!" sketch needs exactly {required} logical inputs, got " ++ given.display
  | noInputs template => template ++ " sketch needs at least one logical input"
  | count template given stated =>
    template ++ s!" sketch: {given} inputs given, num_logical_inputs is " ++ stated.display

/-- Why inputs have the wrong form. -/
inductive BadInput
  | node (cause : ShapeError)
  | rowLengths (lengths : List Nat)
  | rowBits
  | bitwidth (template : String) (given : Datum)
  | notWord (template : String) (index : Nat)
  | width (template : String) (index given : Nat) (limit : Datum)

/-- The message of inputs of the wrong form. -/
def BadInput.message : BadInput → String
  | node cause => cause.message
  | rowLengths lengths =>
    "densely_pack: rows must be non-empty and equally long, got lengths " ++
      Text.bracketed (lengths.map toString)
  | rowBits => "densely_pack: rows must hold 1-bit expressions"
  | bitwidth template given =>
    template ++ " sketch: bitwidth must be positive, got " ++ given.literal
  | notWord template index => template ++ s!" sketch: logical input {index} is not a bit-vector"
  | width template index given limit =>
    template ++ s!" sketch: logical input {index} has width {given}, bitwidth is " ++ limit.display

/-- Why an option, or a number of a platform, has no such value. -/
inductive BadOption
  | noArrangement
  | shapes (lengths : List Nat)
  | fill (given : Datum)
  | template (name : String) (known : List String)
  | pointed

/-- The message of a wrong option. -/
def BadOption.message : BadOption → String
  | noArrangement => "HoleSelectedMapping needs at least one strategy"
  | shapes lengths =>
    "Mapping strategies produced different shapes: " ++ Text.bracketed (lengths.map toString)
  | fill given => "fill must be None, 'zero' or 'sign', got " ++ given.literal
  | template name known =>
    "Unknown sketch generator '" ++ name ++ "' (known: " ++ ", ".intercalate known ++ ")"
  | pointed => "'float' object cannot be interpreted as an integer"

/-- Why something is not built. -/
inductive Refusal
  | unsupported (cause : Unsupported)
  | ports (r : Request) (missing unexpected : List String)
  | portWidth (r : Request) (port : String) (width : Nat) (actual : Option Nat)
  | mismatch (cause : Mismatch)
  | arity (cause : Arity)
  | input (cause : BadInput)
  | option (cause : BadOption)

/-- The message of something that is not built. -/
def Refusal.message : Refusal → String
  | unsupported cause => cause.message
  | ports r missing unexpected =>
    r.text ++ ": missing ports " ++ Text.nameList missing ++ ", unexpected ports " ++
      Text.nameList unexpected
  | portWidth r port width actual =>
    r.text ++ ": port " ++ port ++ s!" must be {width} bits, got " ++
      (match actual with
        | some w => toString w
        | none => "None")
  | mismatch cause => cause.message
  | arity cause => cause.message
  | input cause => cause.message
  | option cause => cause.message

/-- The numbers that the message of something that is not built shows, besides those that are
counted or stated in a request. -/
def Refusal.numbers : Refusal → List Int
  | portWidth _ _ width actual => (width :: actual.toList).map Int.ofNat
  | input (.node cause) => cause.numbers
  | input (.width _ _ given _) => [(given : Int)]
  | _ => []

end CircuitSketch
