import CircuitSketch.Template.Bitwise

/-!
# Sketches around a carry chain

A carry chain whose carry in is a hole, alone or with bitwise functions in front of it: sums and
differences take the sum of the chain, comparisons its carry out.
-/
namespace CircuitSketch.Template

/-- Places a carry chain whose carry in is a hole: the sum, the carry out and the program. -/
def chainOf (p : Platform) (di s : Expr) (width : Datum) (given : Option ChainProgram) :
    Build Refusal (Expr × Expr × ChainProgram) := do
  let carryIn ← match given with
    | some c => pure c.carryIn
    | none => Build.newHole 1 none
  let (sum, carryOut, carry) ←
    p.carryChain (.hole carryIn) di s width (given.map ChainProgram.carry)
  pure (sum, carryOut, ⟨carry, carryIn⟩)

/-- The sketch of a carry chain between two checked inputs. -/
def carryOf (p : Platform) (di s : Expr) (width : Nat) (given : Option ChainProgram) :
    Build Refusal (Expr × ChainProgram) := do
  let (sum, _, program) ← chainOf p di s (.int width) given
  pure (sum, program)

/-- One carry chain between two inputs. -/
def carry (p : Platform) (inputs : List Operand) (count width : Datum)
    (given : Option GivenProgram) : Build Refusal (Expr × ChainProgram) := do
  let (es, w) ← checkInputs ⟨"carry", some 2, false⟩ inputs count width
  let program ← expect "carry" "CarryState"
    (fun
      | .chain c => some c
      | _ => none) given
  match es with
  | [a, b] =>
    let di ← widen a w
    let s ← widen b w
    let (sum, _, program) ← chainOf p di s width program
    pure (sum, program)
  | _ => Build.fail (.arity (.noInputs "carry"))

/-- The sketch of a bitwise function that feeds a carry chain, the first input on the other side. -/
def adderOf (p : Platform) (inputs : List Expr) (width : Nat) (given : Option AdderProgram) :
    Build Refusal (Expr × AdderProgram) := do
  let (s, bitwise) ← bitwiseOf p inputs width (given.map AdderProgram.bitwise)
  let di ← widen (inputs.headD s) width
  let (sum, chain) ← carryOf p di s width (given.map AdderProgram.chain)
  pure (sum, ⟨bitwise, chain⟩)

/-- Sums and differences: a bitwise function of the inputs feeds a carry chain. -/
def bitwiseWithCarry (p : Platform) (inputs : List Operand) (count width : Datum)
    (given : Option GivenProgram) : Build Refusal (Expr × AdderProgram) := do
  let (es, w) ← checkInputs ⟨"bitwise_with_carry", none, false⟩ inputs count width
  let program ← expect "bitwise_with_carry" "BitwiseCarryState"
    (fun
      | .adder a => some a
      | _ => none) given
  refuseTruth .zeroExtend width
  refuseCount count
  adderOf p es w program

/-- The sketch of a comparison of checked inputs. -/
def comparisonOf (p : Platform) (inputs : List Expr) (width : Nat)
    (given : Option ComparisonProgram) : Build Refusal (Expr × ComparisonProgram) := do
  let (di, diProgram) ← bitwiseOf p inputs width (given.map ComparisonProgram.di)
  let (s, sProgram) ← bitwiseOf p inputs width (given.map ComparisonProgram.s)
  let (_, carryOut, chain) ← chainOf p di s (.int width) (given.map ComparisonProgram.chain)
  pure (carryOut, ⟨diProgram, sProgram, chain⟩)

/-- Comparisons: two bitwise functions feed a carry chain, whose carry out is the result. -/
def comparison (p : Platform) (inputs : List Operand) (count width : Datum)
    (given : Option GivenProgram) : Build Refusal (Expr × ComparisonProgram) := do
  let (es, w) ← checkInputs ⟨"comparison", none, false⟩ inputs count width
  let program ← expect "comparison" "ComparisonState"
    (fun
      | .comparison c => some c
      | _ => none) given
  refuseTruth .zeroExtend width
  refuseCount count
  comparisonOf p es w program

end CircuitSketch.Template
