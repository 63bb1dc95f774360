import CircuitSketch.Evaluation.Basic
import CircuitSketch.Expr.Pass

/-!
# Evaluating shared parts once

Evaluation is a pass over the nodes, so the work is proportional to their number and deep
expressions need no recursion. A choice waits for its selector first, and then for the side that the
selector picks, or for both sides if its bit is not constant. Operands are taken up from the last to
the first.
-/
namespace CircuitSketch

variable {β : Type}

/-- The bit of a word that settles a choice. -/
def Value.firstBit : Value β → Except EvalError β
  | .word (bit :: _) => .ok bit
  | _ => .error .malformed

namespace Expr

variable [BitAlgebra β]

/-- The sides of a choice whose values are called for, from the bit that settles it. -/
def sides (bit : β) (a b : Expr) : List Expr :=
  match BitAlgebra.constant? bit with
  | some true => [b]
  | some false => [a]
  | none => [a, b]

/-- The nodes whose values the value of a node calls for. -/
def needsForValue (t : Results (Value β)) : Expr → Except EvalError (List Expr)
  | hole _ => .ok []
  | node _ _ _ args => .ok args
  | choose _ _ a b s =>
    match t[hole s]? with
    | none => .ok [hole s]
    | some selector => selector.firstBit.map fun bit => sides bit a b

/-- The value of a choice from the bit that settles it and the values of its sides. -/
def chosenValue (t : Results (Value β)) (bit : β) (a b : Expr) :
    Except (Stop EvalError) (Value β) :=
  match BitAlgebra.constant? bit with
  | some true => t.read b
  | some false => t.read a
  | none => do
    let x ← t.read a
    let y ← t.read b
    (mix bit x y).mapError .failed

/-- The value of a node from the values of other nodes. -/
def valueFrom (c : Context β) (t : Results (Value β)) : Expr → Except (Stop EvalError) (Value β)
  | hole h =>
    match c.decision h with
    | some bits => .ok (.word bits)
    | none => .error (.failed (.openHole h))
  | node _ op _ args => do
    let values ← t.readAll args
    (op.eval c values).mapError .failed
  | choose _ _ a b s => do
    let selector ← t.read (hole s)
    let bit ← selector.firstBit.mapError .failed
    chosenValue t bit a b

/-- A choice calls for its selector until that has a value, and then for the sides that its bit
tells. -/
theorem of_needsForValue_choose {t : Results (Value β)} {tag w : Nat} {a b : Expr} {s : Hole}
    {es : List Expr} (h : needsForValue t (choose tag w a b s) = .ok es) :
    (hole s ∉ t ∧ es = [hole s]) ∨
      ∃ selector bit, t[hole s]? = some selector ∧ selector.firstBit = .ok bit ∧
        es = sides bit a b := by
  rw [needsForValue] at h
  split at h
  next hnone =>
    cases h
    exact .inl ⟨by simp [Std.HashMap.mem_iff_isSome_getElem?, hnone], rfl⟩
  next selector hsome =>
    cases hbit : selector.firstBit with
    | error err => rw [hbit] at h; cases h
    | ok bit =>
      rw [hbit] at h
      cases h
      exact .inr ⟨selector, bit, hsome, hbit, rfl⟩

theorem valueFrom_choose {t : Results (Value β)} {s : Hole} {selector : Value β} {bit : β}
    (hselector : t[hole s]? = some selector) (hbit : selector.firstBit = .ok bit) (c : Context β)
    (tag w : Nat) (a b : Expr) :
    valueFrom c t (choose tag w a b s) = chosenValue t bit a b := by
  rw [valueFrom, Results.read_eq_ok hselector]
  change (selector.firstBit.mapError Stop.failed >>= fun bit => chosenValue t bit a b) = _
  rw [hbit]
  rfl

theorem needsForValue_sublist {t : Results (Value β)} {e : Expr} {es : List Expr}
    (h : needsForValue t e = .ok es) : es.Sublist e.children := by
  cases e with
  | hole k =>
    cases h
    exact .slnil
  | node tag op s args =>
    cases h
    exact .refl _
  | choose tag w a b s =>
    obtain ⟨-, rfl⟩ | ⟨selector, bit, -, -, rfl⟩ := of_needsForValue_choose h
    · simp
    · unfold sides
      split <;> simp

/-- The pass that finds values. -/
def evaluation (c : Context β) : Pass EvalError (Value β) where
  needs := needsForValue
  finish := valueFrom c
  lastFirst := true
  needs_sublist := needsForValue_sublist

theorem chosenValue_ne_unready {t : Results (Value β)} {bit : β} {a b : Expr}
    (h : ∀ d ∈ sides bit a b, d ∈ t) (d : Expr) :
    chosenValue t bit a b ≠ .error (.unready d) := by
  unfold sides at h
  unfold chosenValue
  split at h
  next =>
    obtain ⟨y, -, hy⟩ := Results.exists_read (ε := EvalError) (h b (by simp))
    simp [hy]
  next =>
    obtain ⟨x, -, hx⟩ := Results.exists_read (ε := EvalError) (h a (by simp))
    simp [hx]
  next =>
    obtain ⟨x, -, hx⟩ := Results.exists_read (ε := EvalError) (h a (by simp))
    obtain ⟨y, -, hy⟩ := Results.exists_read (ε := EvalError) (h b (by simp))
    rw [hx, hy]
    exact Stop.mapError_failed_ne_unready (mix bit x y) d

theorem evaluation_ready (c : Context β) : (evaluation c).Ready := by
  intro t e es hneeds hes d hfinish
  change valueFrom c t e = _ at hfinish
  cases e with
  | hole h =>
    rw [valueFrom] at hfinish
    split at hfinish <;> cases hfinish
  | node tag op s args =>
    cases hneeds
    obtain ⟨values, hvalues⟩ := Results.exists_readAll (ε := EvalError) hes
    rw [valueFrom, hvalues] at hfinish
    exact Stop.mapError_failed_ne_unready (op.eval c values) d hfinish
  | choose tag w a b s =>
    replace hneeds : needsForValue t (choose tag w a b s) = .ok es := hneeds
    obtain ⟨hnew, rfl⟩ | ⟨selector, bit, hselector, hbit, rfl⟩ := of_needsForValue_choose hneeds
    · exact hnew (hes _ List.mem_cons_self)
    · rw [valueFrom_choose hselector hbit] at hfinish
      exact chosenValue_ne_unready hes d hfinish

/-- The value of an expression, every node evaluated at most once. -/
def evaluate (c : Context β) (e : Expr) : Except EvalError (Value β) :=
  (evaluation c).resume (evaluation_ready c) ∅ e

end Expr
end CircuitSketch
