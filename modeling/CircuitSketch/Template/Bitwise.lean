import CircuitSketch.Arrangement
import CircuitSketch.Template.Inputs

/-!
# One function at every bit position

Each input is extended to the width of the sketch, with zeros or with copies of its top bit as a
hole decides. The positions are laid out by an arrangement that another hole picks, one lookup table
for each position computes the function, and the results are brought back into order. All tables are
programmed alike.
-/
namespace CircuitSketch.Template

/-- What the template demands of its inputs. -/
def bitwiseDemand : Demand := ⟨"bitwise", none, false⟩

/-- An input extended to the width of the sketch in one of two ways. -/
def extended (width : Nat) (e : Expr) : Build Refusal Expr := do
  let zeros ← Build.zeroExtend e width
  let copies ← Build.dupExtend e width
  Build.choose zeros copies

/-- The bits of all inputs at one position. -/
def positionBits (inputs : List Expr) (i : Nat) : Build Refusal Nest := do
  let bits ← inputs.mapM fun e => Build.bit e i
  pure (.list (bits.map .leaf))

/-- The expressions that a position consists of. -/
def positionWords : Nest → List Expr
  | .leaf e => [e]
  | .list items => items.filterMap fun
    | .leaf e => some e
    | .list _ => none

/-- The positions that a nest consists of. -/
def positions : Nest → List (List Expr)
  | .leaf _ => []
  | .list items => items.map positionWords

/-- One lookup table for every position, all with the same table. -/
def tables (p : Platform) (given : Option LutProgram) :
    List (List Expr) → Build Refusal (List Expr × Option LutProgram)
  | [] => pure ([], given)
  | bits :: rest => do
    let (out, program) ← p.lut bits given
    let (outs, last) ← tables p (some program) rest
    pure (out :: outs, last)

/-- The sketch of a bitwise function of checked inputs. -/
def bitwiseOf (p : Platform) (inputs : List Expr) (width : Nat) (given : Option LutProgram) :
    Build Refusal (Expr × LutProgram) := do
  let wide ← inputs.mapM (extended width)
  let logical ← (List.range width).mapM (positionBits wide)
  let choice ← ArrangementChoice.ofList Arrangement.usual
  let physical ← choice.toPhysical logical
  let (outs, program) ← tables p given (positions physical)
  let back ← choice.toLogical (outs.map fun e => .list [.leaf e])
  let out ← Build.concatBits (positions back).flatten
  pure (out, program.getD ⟨inputs.length, []⟩)

/-- The program of a bitwise sketch. -/
def expectLut (name : String) : Option GivenProgram → Except Refusal (Option LutProgram) :=
  expect name "LutData" fun
    | .lut l => some l
    | _ => none

/-- One function of the inputs at every bit position. -/
def bitwise (p : Platform) (inputs : List Operand) (count width : Datum)
    (given : Option GivenProgram) : Build Refusal (Expr × LutProgram) := do
  let (es, w) ← checkInputs bitwiseDemand inputs count width
  let program ← expectLut bitwiseDemand.name given
  refuseTruth .zeroExtend width
  refuseCount count
  bitwiseOf p es w program

end CircuitSketch.Template
