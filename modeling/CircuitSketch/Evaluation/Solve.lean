import CircuitSketch.Condition.Basic
import CircuitSketch.Evaluation.Interpret

/-!
# Solving for the holes of a sketch

Given a specification without holes and a sketch of the same width, the solver looks for values of
the holes that make both agree under every valuation of the variables. It goes through the
valuations one by one. Under each it evaluates the specification to a number and the sketch to
conditions on the bits of its holes, and demands that they agree. The demands are collected in one
condition, and any of its solutions settles the holes; the least one is taken.
-/
namespace CircuitSketch

/-- Why a problem cannot be posed or worked on. -/
inductive SolveError
  | notWords
  | widths (specification sketch : Nat)
  | openSpecification
  | shape (cause : ShapeError)
  | variableWidths (name : String) (specification sketch : Nat)
  | eval (cause : EvalError)

/-- The message of a problem that cannot be posed or worked on; `showHole` names holes. -/
def SolveError.message (showHole : Hole → String) : SolveError → String
  | notWords => "solve() needs bit-vector expressions"
  | widths specification sketch =>
    s!"Specification is {specification} bits, sketch is {sketch} bits"
  | openSpecification => "Specification must not contain holes"
  | shape cause => cause.message
  | variableWidths name specification sketch =>
    "Variable '" ++ name ++ s!"' has width {specification} in the specification, " ++
      s!"{sketch} in the sketch"
  | eval cause => cause.message showHole

/-- The numbers that the message of a problem shows. -/
def SolveError.numbers : SolveError → List Int
  | widths specification sketch => [specification, sketch]
  | shape cause => cause.numbers
  | variableWidths _ specification sketch => [specification, sketch]
  | eval cause => cause.numbers
  | _ => []

/-- How a search ended. -/
inductive Verdict
  | satisfied
  | unsatisfied
  | unknown
deriving DecidableEq, Repr

/-- The name of an end. -/
def Verdict.name : Verdict → String
  | satisfied => "sat"
  | unsatisfied => "unsat"
  | unknown => "unknown"

/-- The result of a search: how it ended, the value of every hole of a satisfied sketch, and the
number of valuations that were looked at. -/
structure Outcome where
  verdict : Verdict
  values : List (Hole × Nat)
  checked : Nat

namespace Solve

/-- Adds the variables of the sketch to those of the specification. -/
def mergeVariables (known : List (String × Nat)) :
    List (String × Nat) → Except SolveError (List (String × Nat))
  | [] => .ok known
  | (name, width) :: rest =>
    match known.lookup name with
    | none => mergeVariables (known ++ [(name, width)]) rest
    | some first =>
      if first = width then mergeVariables known rest
      else .error (.variableWidths name first width)

/-- The variables of a specification and a sketch, in the order of their names. -/
def freeVariables (specification sketch : Expr) : Except SolveError (List (String × Nat)) := do
  let known ← specification.freeVars.mapError .shape
  let more ← sketch.freeVars.mapError .shape
  let all ← mergeVariables known more
  .ok (all.mergeSort fun v w => decide (v.1 ≤ w.1))

/-- The number of the first bit of each hole when all bits are numbered in order. -/
def numberBits (start : Nat) : List Hole → List (Hole × Nat)
  | [] => []
  | h :: rest => (h, start) :: numberBits (start + h.width) rest

/-- Evaluation over conditions on the numbered bits of holes. -/
def symbolic (env : Valuation) (starts : Std.HashMap Hole Nat) (modules : ModuleTable) :
    Context Condition where
  input name := env.lookup name
  decision h := starts[h]?.map fun start =>
    (List.range h.width).map fun i => Condition.decision (start + i)
  modules := modules

/-- Adds to a condition that sketch and specification agree under one valuation. -/
def demandAgreement (specification sketch : Expr) (starts : Std.HashMap Hole Nat)
    (modules : ModuleTable) (env : Valuation) (demand : Condition) :
    Except EvalError Condition := do
  let spec : Context Bool :=
    { input := fun name => env.lookup name, decision := fun _ => none, modules := modules }
  let expected ← specification.evaluate spec >>= Value.toNat
  match ← sketch.evaluate (symbolic env starts modules) with
  | .word bits =>
    .ok (bits.zipIdx.foldl
      (fun demand b => demand.and (if expected.testBit b.2 then b.1 else b.1.not)) demand)
  | _ => .error .malformed

/-- Goes through valuations from a position on, `remaining` of them, until the demand can no longer
be met. Yields the number of valuations looked at and the demand. -/
def search (specification sketch : Expr) (starts : Std.HashMap Hole Nat) (modules : ModuleTable)
    (vars : List (String × Nat)) :
    (remaining position : Nat) → Condition → Except EvalError (Nat × Condition)
  | 0, position, demand => .ok (position, demand)
  | remaining + 1, position, demand =>
    match demandAgreement specification sketch starts modules (valuation vars position)
        demand with
    | .error err => .error err
    | .ok demand =>
      if demand.constant? = some false then .ok (position + 1, demand)
      else search specification sketch starts modules vars remaining (position + 1) demand

/-- The number that a solution gives to the bits from `start` on. -/
def solvedNumber (ones : List Nat) (start width : Nat) : Nat :=
  Word.toNat ((List.range width).map fun i => ones.contains (start + i))

/-- The value of every hole in the least solution of a demand. -/
def settle (starts : List (Hole × Nat)) (ones : List Nat) : List (Hole × Nat) :=
  starts.map fun s => (s.1, solvedNumber ones s.2 s.1.width)

end Solve

open Solve in
/-- Looks for values of the holes of a sketch that make it agree with a specification. More than
`limit` valuations are not gone through. -/
def solve (specification sketch : Expr) (limit : Int) (modules : ModuleTable) :
    Except SolveError Outcome := do
  if !specification.isWord || !sketch.isWord then throw .notWords
  if specification.width ≠ sketch.width then
    throw (.widths specification.width sketch.width)
  if !specification.holes.isEmpty then throw .openSpecification
  let vars ← freeVariables specification sketch
  let total := valuationCount vars
  if (total : Int) > limit then return ⟨.unknown, [], 0⟩
  let starts := numberBits 0 sketch.holes
  let (checked, demand) ←
    (search specification sketch (Std.HashMap.ofList starts) modules vars total 0
      (.const true)).mapError .eval
  match demand.leastSolution with
  | some ones => return ⟨.satisfied, settle starts ones, checked⟩
  | none => return ⟨.unsatisfied, [], checked⟩

end CircuitSketch
