import CircuitSketch.Interface.Construct

/-!
# Inputs of a template

A template turns words into a sketch for a class of operations. It is asked for with a number of
inputs, a width and a program of an earlier sketch, and these are checked before anything is built:
the number of inputs, the width, each input from left to right, and the kind of the program.
-/
namespace CircuitSketch.Template

/-- What a template demands of its inputs: a fixed number of them, or inputs exactly as wide as the
sketch. -/
structure Demand where
  name : String
  required : Option Nat
  exact : Bool

/-- A width of at least one. A truth value counts as zero or one. -/
def bitwidth (name : String) (given : Datum) : Except Refusal Nat :=
  match given.number? with
  | some n => if n < 1 then .error (.input (.bitwidth name given)) else .ok n.toNat
  | none => .error (.input (.bitwidth name given))

/-- Every input as a word that fits the width, from a position on. `stated` is the width as it was
given. -/
def words (demand : Demand) (width : Nat) (stated : Datum) :
    Nat → List Operand → Except Refusal (List Expr)
  | _, [] => .ok []
  | index, .expr e :: rest =>
    if !e.isWord then .error (.input (.notWord demand.name index))
    else if e.width > width ∨ (demand.exact ∧ e.width ≠ width) then
      .error (.input (.width demand.name index e.width stated))
    else
      match words demand width stated (index + 1) rest with
      | .ok es => .ok (e :: es)
      | .error err => .error err
  | index, _ :: _ => .error (.input (.notWord demand.name index))

/-- The inputs as words and the width. -/
def checkInputs (demand : Demand) (inputs : List Operand) (count width : Datum) :
    Except Refusal (List Expr × Nat) := do
  match demand.required with
  | some n => if !count.alike (.int n) then throw (.arity (.exactly demand.name n count))
  | none => pure ()
  if !count.magnitude?.any fun x => !x.less (.ofInt 1) then
    throw (.arity (.noInputs demand.name))
  if !count.alike (.int inputs.length) then
    throw (.arity (.count demand.name inputs.length count))
  let w ← bitwidth demand.name width
  let es ← words demand w width 0 inputs
  return (es, w)

/-- The program of an earlier sketch, if it is of the kind that the template works with. -/
def expect {α : Type} (name kind : String) (read : Program → Option α) :
    Option GivenProgram → Except Refusal (Option α)
  | none => .ok none
  | some (.other given) => .error (.mismatch (.template name kind given))
  | some (.program p) =>
    match read p with
    | some x => .ok (some x)
    | none => .error (.mismatch (.template name kind p.kind))

/-- A truth value that passed as a width is not one for a node. -/
def refuseTruth (place : Place) : Datum → Except Refusal Unit
  | .bool b => .error (.input (.node (.badWidth place (.bool b))))
  | _ => .ok ()

/-- A count that passed as a number of inputs is one for a lookup table only if it is written as a
whole number. -/
def refuseCount : Datum → Except Refusal Unit
  | .int _ => .ok ()
  | d => .error (.unsupported (.badParameter ⟨"LUT", [("num_inputs", d)]⟩ "num_inputs"))

/-- A word as wide as the sketch, with zeros added where it is narrower. -/
def widen (e : Expr) (width : Nat) : Build Refusal Expr :=
  if e.width = width then pure e else Build.zeroExtend e width

end CircuitSketch.Template
