import CircuitSketch.Bits.Algebra
import CircuitSketch.Condition.Diagram

/-!
# Conditions on decisions

A condition is a Boolean function of numbered decisions, kept as a diagram without waste. Conditions
form a bit algebra, and `Condition.holds` evaluates each operation pointwise.
-/
namespace CircuitSketch

/-- A Boolean function of numbered decisions. -/
structure Condition where
  diagram : Diagram
  above : diagram.Above 0

namespace Condition

/-- Whether a condition holds under given decisions. -/
def holds (σ : Nat → Bool) (c : Condition) : Bool := c.diagram.eval σ

/-- The condition that always, or never, holds. -/
def const (b : Bool) : Condition := ⟨.leaf b, trivial⟩

/-- The condition that one decision is one. -/
def decision (n : Nat) : Condition :=
  ⟨.branch n (.leaf false) (.leaf true), Nat.zero_le n, by simp, trivial, trivial⟩

/-- Two conditions combined by an operator on truth values. -/
def combine (op : Bool → Bool → Bool) (c d : Condition) : Condition :=
  ⟨c.diagram.combine op d.diagram, by
    rw [Diagram.combine_eq_apply]
    exact Diagram.Above.apply op c.above d.above⟩

/-- The value of a condition that does not depend on any decision. -/
def constant? (c : Condition) : Option Bool :=
  match c.diagram with
  | .leaf b => some b
  | .branch .. => none

/-- The condition under which a condition fails. -/
def not (c : Condition) : Condition := combine Bool.xor (const true) c

/-- Both conditions. -/
def and (c d : Condition) : Condition := combine Bool.and c d

/-- One of two conditions at least. -/
def or (c d : Condition) : Condition := combine Bool.or c d

/-- Exactly one of two conditions. -/
def xor (c d : Condition) : Condition := combine Bool.xor c d

/-- The second condition where the first holds, and the third where it fails. -/
def ite (c t e : Condition) : Condition :=
  match c.constant? with
  | some true => t
  | some false => e
  | none => or (and c t) (and (not c) e)

instance : BitAlgebra Condition where
  const := const
  constant? := constant?
  not := not
  and := and
  or := or
  xor := xor
  ite := ite

@[simp] theorem holds_const (σ : Nat → Bool) (b : Bool) : (const b).holds σ = b := rfl

@[simp] theorem holds_decision (σ : Nat → Bool) (n : Nat) : (decision n).holds σ = σ n := by
  simp only [holds, decision, Diagram.eval]
  split <;> simp_all

@[simp] theorem holds_combine (σ : Nat → Bool) (op : Bool → Bool → Bool) (c d : Condition) :
    (combine op c d).holds σ = op (c.holds σ) (d.holds σ) := by
  simp only [holds, combine, Diagram.combine_eq_apply, Diagram.eval_apply]

@[simp] theorem holds_not (σ : Nat → Bool) (c : Condition) : (not c).holds σ = !c.holds σ := by
  simp [not]

@[simp] theorem holds_and (σ : Nat → Bool) (c d : Condition) :
    (and c d).holds σ = (c.holds σ && d.holds σ) := by
  simp [and]

@[simp] theorem holds_or (σ : Nat → Bool) (c d : Condition) :
    (or c d).holds σ = (c.holds σ || d.holds σ) := by
  simp [or]

@[simp] theorem holds_xor (σ : Nat → Bool) (c d : Condition) :
    (xor c d).holds σ = (c.holds σ ^^ d.holds σ) := by
  simp [xor]

theorem holds_of_constant? {σ : Nat → Bool} {c : Condition} {b : Bool}
    (h : c.constant? = some b) : c.holds σ = b := by
  unfold constant? at h
  split at h
  · next hd => simp_all [holds, Diagram.eval]
  · simp at h

@[simp] theorem holds_ite (σ : Nat → Bool) (c t e : Condition) :
    (ite c t e).holds σ = if c.holds σ then t.holds σ else e.holds σ := by
  unfold ite
  split
  · next h => simp [holds_of_constant? h]
  · next h => simp [holds_of_constant? h]
  · cases h : c.holds σ <;> simp [h]

/-- The decisions that have to be one in the least solution of a condition, and zero elsewhere:
decisions with smaller numbers count first. A condition that never holds has no solution. -/
def leastSolution (c : Condition) : Option (List Nat) :=
  c.diagram.leastPath.map fun path =>
    path.filterMap fun step => if step.2 then some step.1 else none

end Condition
end CircuitSketch
