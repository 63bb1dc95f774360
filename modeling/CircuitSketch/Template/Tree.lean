import CircuitSketch.Reduction.Tree
import CircuitSketch.Template.Inputs

/-!
# Comparison by a tree of lookup tables

The bits of all inputs are reduced to one bit, which takes more lookup tables than a carry chain but
fewer of them one after the other.
-/
namespace CircuitSketch.Template

/-- The sketch of a reduction of all bits of checked inputs. -/
def shallowComparisonOf (p : Platform) (inputs : List Expr) (given : Option ReductionProgram)
    (share : Bool) : Build Refusal (Expr × ReductionProgram) := do
  let rows ← inputs.mapM Build.bits
  Reduction.reduce p (rows.map fun row => row.map .expr) given share

/-- A comparison by a tree of lookup tables. -/
def shallowComparison (p : Platform) (inputs : List Operand) (count width : Datum)
    (given : Option GivenProgram) (share : Bool) : Build Refusal (Expr × ReductionProgram) := do
  let (es, _) ← checkInputs ⟨"shallow_comparison", none, true⟩ inputs count width
  let program ← expect "shallow_comparison" "ReductionState"
    (fun
      | .reduction r => some r
      | _ => none) given
  shallowComparisonOf p es program share

end CircuitSketch.Template
