import CircuitSketch.Evaluation.Shared
import CircuitSketch.Expr.Assignment

/-!
# Interpretation

The number that an expression stands for once its variables and holes have values. Numbers for
variables and holes may be negative or too large; they are taken modulo the width.
-/
namespace CircuitSketch

/-- The bits of a hole under an assignment. -/
def Assignment.bits? (assignment : Assignment) (h : Hole) : Option (List Bool) :=
  assignment[h]?.map fun value => Word.ofInt h.width value.toInt

/-- Numbers for variables, by name. -/
abbrev Valuation := List (String × Int)

/-- Evaluation over truth values. -/
def Context.concrete (env : Valuation) (assignment : Assignment) (modules : ModuleTable) :
    Context Bool where
  input name := env.lookup name
  decision := assignment.bits?
  modules := modules

/-- The number that a value stands for. -/
def Value.toNat : Value Bool → Except EvalError Nat
  | .word bits => .ok (Word.toNat bits)
  | _ => .error .malformed

/-- The number that an expression stands for. -/
def Expr.interpret (e : Expr) (env : Valuation) (assignment : Assignment) (modules : ModuleTable) :
    Except EvalError Nat :=
  if e.isWord then
    match e.evaluate (.concrete env assignment modules) with
    | .ok value => value.toNat
    | .error err => .error err
  else .error (.notWord e.kind)

/-- The number of valuations of some variables. -/
def valuationCount (vars : List (String × Nat)) : Nat :=
  vars.foldr (fun v count => twoPow v.2 * count) 1

/-- The valuation of a given position when the first variable changes slowest: the values are the
digits of the position, each in the base that its width calls for. -/
def valuation : List (String × Nat) → Nat → Valuation
  | [], _ => []
  | (name, width) :: rest, position =>
    let count := valuationCount rest
    (name, ((position / count % twoPow width : Nat) : Int)) :: valuation rest (position % count)

/-- The numbers that an expression stands for under every valuation of some variables, in order. Of
several variables with one name the last one counts. -/
def Expr.truthTable (e : Expr) (vars : List (String × Nat)) (assignment : Assignment)
    (modules : ModuleTable) : Except EvalError (List Nat) :=
  (List.range (valuationCount vars)).mapM fun position =>
    e.interpret (valuation vars position).reverse assignment modules

end CircuitSketch
