import CircuitSketch.Interface.Request

/-!
# Arrangements of positions

Templates think in logical positions, and primitives are wired by physical ones. An arrangement
says, for every length, which logical position goes to each physical one and the way back. Which of
several arrangements is used can be left to holes: every candidate is laid out, and choices driven
by one set of selectors pick among them in both directions.
-/
namespace CircuitSketch

/-- A way to arrange positions: for a number of positions, the source of each position on the way to
the physical side and on the way back. -/
structure Arrangement where
  name : String
  physical : Nat → List Nat
  logical : Nat → List Nat

/-- The elements of a list at the positions that an order names. -/
def arrange {α : Type} (order : Nat → List Nat) (xs : List α) : List α :=
  (order xs.length).filterMap fun i => xs[i]?

namespace Arrangement

/-- Positions from `k` on, then those before. -/
def rotation (k n : Nat) : List Nat :=
  if n = 0 then [] else (List.range n).map fun i => (i + k) % n

/-- Every position stays. -/
def identity : Arrangement := ⟨"identity", List.range, List.range⟩

/-- The last position comes first. -/
def reversed : Arrangement :=
  ⟨"reversed", fun n => (List.range n).reverse, fun n => (List.range n).reverse⟩

/-- Rotation to the left by `k`, and back. -/
def rotate (k : Int) : Arrangement :=
  ⟨"rotate", fun n => rotation (k % n).toNat n, fun n => rotation (-k % n).toNat n⟩

/-- The last position is lost; the way back changes nothing. -/
def truncate : Arrangement := ⟨"truncate", fun n => List.range (n - 1), List.range⟩

/-- The arrangements that templates let the holes choose from. -/
def usual : List Arrangement := [identity, reversed]

end Arrangement

/-- Nested lists of expressions. -/
inductive Nest
  | leaf (e : Expr)
  | list (items : List Nest)

namespace Nest

/-- A nest as an operand. Only a single expression can be one. -/
def operand : Nest → Operand
  | leaf e => .expr e
  | list _ => .other "list"

/-- Whether two nests are occurrences of one expression. -/
def isSame : Nest → Nest → Bool
  | leaf a, leaf b => a = b
  | _, _ => false

end Nest

/-- Arrangements, at least one, and the holes that choose among them; the first is lowest. -/
structure ArrangementChoice where
  first : Arrangement
  rest : List Arrangement
  selectors : List Hole

namespace ArrangementChoice

/-- The number of selectors that tell `count` candidates apart. -/
def selectorCount (count : Nat) : Nat := if count ≤ 1 then 0 else Nat.log2 (count - 1) + 1

/-- New selectors for given arrangements. -/
def ofList (arrangements : List Arrangement) : Build Refusal ArrangementChoice :=
  match arrangements with
  | [] => Build.fail (.option .noArrangement)
  | first :: rest => do
    let selectors ← Build.newBits (selectorCount arrangements.length)
    pure ⟨first, rest, selectors⟩

/-- Every arrangement. -/
def arrangements (c : ArrangementChoice) : List Arrangement := c.first :: c.rest

/-- A choice between two candidates, settled by a selector. -/
def choosePair (selector : Hole) (a b : Nest) : Build Refusal Nest := fun next =>
  match Checked.choose a.operand b.operand (.expr (.hole selector)) next with
  | .ok (e, next) => .ok (.leaf e, next)
  | .error cause => .error (.input (.node cause))

/-- One candidate in place of each neighbouring pair, picked by a selector. Two occurrences of the
same expression need no choice, and a candidate without a neighbour stays. -/
def pickPairs (selector : Hole) : List Nest → Build Refusal (List Nest)
  | a :: b :: rest => do
    let picked ← if a.isSame b then pure a else choosePair selector a b
    let more ← pickPairs selector rest
    pure (picked :: more)
  | rest => pure rest

/-- The candidate that the selectors encode, level by level. -/
def pick : List Hole → List Nest → Build Refusal Nest
  | _, [e] => pure e
  | selector :: selectors, candidates => do
    let picked ← pickPairs selector candidates
    pick selectors picked
  | [], _ => Build.fail (.option .noArrangement)

/-- The items of a nest. -/
def asList : Nest → Except Refusal (List Nest)
  | .list items => .ok items
  | .leaf e => .error (.input (.node (.notList e.kind)))

mutual
/-- Picks among nests of one form, leaf by leaf. -/
def pickNest (selectors : List Hole) (first : Nest) (others : List Nest) : Build Refusal Nest :=
  match first with
  | .leaf e => pick selectors (.leaf e :: others)
  | .list items => do
    let more ← (others.mapM asList : Except Refusal (List (List Nest)))
    let lengths := Checked.distinct (items.length :: more.map List.length)
    if lengths.length = 1 then
      let picked ← pickItems selectors items more
      pure (.list picked)
    else Build.fail (.option (.shapes lengths))

/-- Picks among lists of nests of one length, position by position. -/
def pickItems (selectors : List Hole) (items : List Nest) (others : List (List Nest)) :
    Build Refusal (List Nest) :=
  match items with
  | [] => pure []
  | item :: rest => do
    let picked ← pickNest selectors item (others.filterMap List.head?)
    let more ← pickItems selectors rest (others.map List.tail)
    pure (picked :: more)
end

/-- Positions laid out on the physical side by the arrangement that the selectors encode. -/
def toPhysical (c : ArrangementChoice) (positions : List Nest) : Build Refusal Nest :=
  pickNest c.selectors (.list (arrange c.first.physical positions))
    (c.rest.map fun a => .list (arrange a.physical positions))

/-- Positions brought back to the logical side by the arrangement that the selectors encode. -/
def toLogical (c : ArrangementChoice) (positions : List Nest) : Build Refusal Nest :=
  pickNest c.selectors (.list (arrange c.first.logical positions))
    (c.rest.map fun a => .list (arrange a.logical positions))

end ArrangementChoice
end CircuitSketch
