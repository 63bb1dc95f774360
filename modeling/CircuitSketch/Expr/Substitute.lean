import CircuitSketch.Expr.Assignment
import CircuitSketch.Expr.ShapeError
import CircuitSketch.Expr.Build
import CircuitSketch.Expr.Pass

/-!
# Substitution

Settled holes become constants, and a choice whose selector is settled becomes its chosen side; the
other side and the selector are not looked at. A node none of whose parts change stays the same
node. A node with a changed part gives way to a new one, whose tag is the old tag moved past every
tag in use: so one old node has one new node wherever it occurs, and shared parts stay shared.
-/
namespace CircuitSketch

/-- Why a substitution fails. -/
inductive SubstError
  | shape (cause : ShapeError)
  | noValue (h : Hole)

/-- The message of a substitution that fails; `showHole` names holes. -/
def SubstError.message (showHole : Hole → String) : SubstError → String
  | shape cause => cause.message
  | noValue h => "No value for " ++ showHole h

/-- The numbers that the message of a substitution that fails shows. -/
def SubstError.numbers : SubstError → List Int
  | shape cause => cause.numbers
  | noValue h => [(h.width : Int)]

/-- The constant node that settles a hole, as its tag and its value. `base` is past every tag in
use. A number has to fit the hole, and a constant has to have its width. -/
def HoleValue.settle (base : Nat) (h : Hole) : HoleValue → Except SubstError (Nat × Nat)
  | number n =>
    if -(twoPow h.width : Int) ≤ n ∧ n < twoPow h.width then
      .ok (base + h.tag, (n % twoPow h.width).toNat)
    else .error (.shape (.valueRange n h.width))
  | constant tag width value =>
    if width = h.width then .ok (tag, value)
    else .error (.shape (.holeValueWidth value width h.width))

namespace Expr

/-- How a substitution is to be done: the values, whether an unsettled hole is an error, and a
number past every tag in use. -/
structure Substitution where
  assignment : Assignment
  strict : Bool
  base : Nat

/-- The node that takes the place of a hole. -/
def replaceHole (r : Substitution) (h : Hole) : Except SubstError Expr :=
  match r.assignment[h]? with
  | some value =>
    match value.settle r.base h with
    | .ok (tag, n) => .ok (node tag (.const h.width n) (.word h.width) [])
    | .error err => .error err
  | none => if r.strict then .error (.noValue h) else .ok (hole h)

/-- A node with new operands: itself when they are the old ones. -/
def withArgs (r : Substitution) (t : Nat) (op : Op) (s : Shape) (args new : List Expr) : Expr :=
  if new = args then node t op s args else node (r.base + t) op s new

/-- A choice with new sides: itself when they are the old ones. -/
def withSides (r : Substitution) (t w : Nat) (a b x y : Expr) (s : Hole) : Expr :=
  if x = a ∧ y = b then choose t w a b s else choose (r.base + t) w x y s

mutual
/-- An expression with its settled holes replaced. -/
def replace (r : Substitution) : Expr → Except SubstError Expr
  | hole h => replaceHole r h
  | node t op s args =>
    match replaceAll r args with
    | .ok new => .ok (withArgs r t op s args new)
    | .error err => .error err
  | choose t w a b s =>
    match r.assignment[s]? with
    | some value =>
      match value.settle r.base s with
      | .ok (_, n) => if n = 0 then replace r a else replace r b
      | .error err => .error err
    | none =>
      match replace r a with
      | .error err => .error err
      | .ok x =>
        match replace r b with
        | .error err => .error err
        | .ok y => if r.strict then .error (.noValue s) else .ok (withSides r t w a b x y s)

/-- Several expressions with their settled holes replaced, the first one first. -/
def replaceAll (r : Substitution) : List Expr → Except SubstError (List Expr)
  | [] => .ok []
  | e :: rest =>
    match replace r e with
    | .error err => .error err
    | .ok x =>
      match replaceAll r rest with
      | .error err => .error err
      | .ok xs => .ok (x :: xs)
end

/-- The nodes whose replacements the replacement of a node calls for. -/
def needsForReplacement (r : Substitution) : Expr → Except SubstError (List Expr)
  | hole _ => .ok []
  | node _ _ _ args => .ok args
  | choose _ _ a b s =>
    match r.assignment[s]? with
    | some value => (value.settle r.base s).map fun settled => [if settled.2 = 0 then a else b]
    | none => .ok [a, b, hole s]

/-- The replacement of a node from the replacements of other nodes. -/
def replacementFrom (r : Substitution) (t : Results Expr) : Expr → Except (Stop SubstError) Expr
  | hole h => (replaceHole r h).mapError .failed
  | node tag op s args => do
    let new ← t.readAll args
    .ok (withArgs r tag op s args new)
  | choose tag w a b s =>
    match r.assignment[s]? with
    | some value =>
      match value.settle r.base s with
      | .ok (_, n) => t.read (if n = 0 then a else b)
      | .error err => .error (.failed err)
    | none => do
      let x ← t.read a
      let y ← t.read b
      -- a selector without a value stays what it is
      let _ ← t.read (hole s)
      .ok (withSides r tag w a b x y s)

/-- A choice calls for the side that its settled selector picks, or for all its children. -/
theorem of_needsForReplacement_choose {r : Substitution} {tag w : Nat} {a b : Expr} {s : Hole}
    {es : List Expr} (h : needsForReplacement r (choose tag w a b s) = .ok es) :
    (∃ value settled, r.assignment[s]? = some value ∧ value.settle r.base s = .ok settled ∧
      es = [if settled.2 = 0 then a else b]) ∨
    r.assignment[s]? = none ∧ es = [a, b, hole s] := by
  rw [needsForReplacement] at h
  split at h
  next value hvalue =>
    cases hsettled : value.settle r.base s with
    | error err => rw [hsettled] at h; cases h
    | ok settled =>
      rw [hsettled] at h
      cases h
      exact .inl ⟨value, settled, hvalue, hsettled, rfl⟩
  next hnone =>
    cases h
    exact .inr ⟨hnone, rfl⟩

theorem needsForReplacement_sublist {r : Substitution} {e : Expr} {es : List Expr}
    (h : needsForReplacement r e = .ok es) : es.Sublist e.children := by
  cases e with
  | hole k =>
    cases h
    exact .slnil
  | node tag op s args =>
    cases h
    exact .refl _
  | choose tag w a b s =>
    obtain ⟨value, settled, -, -, rfl⟩ | ⟨-, rfl⟩ := of_needsForReplacement_choose h
    · split <;> simp
    · exact .refl _

/-- The pass that finds replacements. -/
def substitution (r : Substitution) : Pass SubstError Expr where
  needs _ := needsForReplacement r
  finish := replacementFrom r
  lastFirst := false
  needs_sublist := needsForReplacement_sublist

theorem substitution_ready (r : Substitution) : (substitution r).Ready := by
  intro t e es hneeds hes d hfinish
  change replacementFrom r t e = _ at hfinish
  cases e with
  | hole h => exact Stop.mapError_failed_ne_unready (replaceHole r h) d hfinish
  | node tag op s args =>
    cases hneeds
    obtain ⟨new, hnew⟩ := Results.exists_readAll (ε := SubstError) hes
    rw [replacementFrom, hnew] at hfinish
    cases hfinish
  | choose tag w a b s =>
    rw [replacementFrom] at hfinish
    replace hneeds : needsForReplacement r (choose tag w a b s) = .ok es := hneeds
    obtain ⟨value, settled, hvalue, hsettled, rfl⟩ | ⟨hnone, rfl⟩ :=
      of_needsForReplacement_choose hneeds
    · obtain ⟨x, -, hx⟩ := Results.exists_read (ε := SubstError) (hes _ List.mem_cons_self)
      simp only [hvalue, hsettled, hx] at hfinish
      cases hfinish
    · obtain ⟨x, -, hx⟩ := Results.exists_read (ε := SubstError) (hes a (by simp))
      obtain ⟨y, -, hy⟩ := Results.exists_read (ε := SubstError) (hes b (by simp))
      obtain ⟨z, -, hz⟩ := Results.exists_read (ε := SubstError) (hes (hole s) (by simp))
      simp only [hnone, hx, hy, hz] at hfinish
      cases hfinish

/-- Replaces the settled holes of an expression. With `strict`, a hole that is met and has no value
is an error. -/
def substitute (e : Expr) (assignment : Assignment) (strict : Bool) : Build SubstError Expr :=
  fun next =>
    let r : Substitution := ⟨assignment, strict, next⟩
    match (substitution r).resume (substitution_ready r) ∅ e with
    | .ok x => .ok (x, next + next)
    | .error err => .error err

end Expr
end CircuitSketch
