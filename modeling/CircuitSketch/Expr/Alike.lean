import CircuitSketch.Expr.Basic

/-!
# Equal structure

Two expressions are alike when they do the same operations on alike operands, whatever their tags.
Holes are alike only if they are the same hole. A node is alike to itself without a look inside, so
that shared parts cost nothing.
-/
namespace CircuitSketch.Expr

mutual
/-- Whether two expressions have equal structure over the same holes. -/
def alike (x y : Expr) : Bool :=
  decide (x = y) ||
    match x, y with
    | .node _ op _ args, .node _ op' _ args' => op.alike op' && alikeAll args args'
    | .choose _ _ a b s, .choose _ _ a' b' s' => alike a a' && alike b b' && s == s'
    | _, _ => false

/-- Whether two lists of expressions are alike item by item. -/
def alikeAll (xs ys : List Expr) : Bool :=
  match xs, ys with
  | [], [] => true
  | x :: xs, y :: ys => alike x y && alikeAll xs ys
  | _, _ => false
end

end CircuitSketch.Expr
