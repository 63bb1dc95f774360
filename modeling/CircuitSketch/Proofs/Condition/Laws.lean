import CircuitSketch.Proofs.Bits.Reading
import CircuitSketch.Proofs.Condition.Canonical

/-!
# What a solver relies on of its diagrams

A solver collects Boolean functions of numbered decisions. It combines them, sees whether one is
constant, and asks for a first solution. How diagrams are drawn and shared is no concern of the
solver. All that it relies on are the laws stated here, and conditions keep them.
-/
namespace CircuitSketch

variable {δ : Type} [BitAlgebra δ]

/-- The laws of diagrams. Under given decisions, `holds` evaluates the operations pointwise, and
`decision` is each of the decisions. A function has one diagram, and the diagrams of constants are
known as such. `leastSolution` tells which decisions are one in a solution, whenever there is one,
and any other solution has a one where it first differs from that. -/
structure DiagramLaws (holds : (Nat → Bool) → δ → Bool) (decision : Nat → δ)
    (leastSolution : δ → Option (List Nat)) : Prop where
  holds_const : ∀ τ b, holds τ (BitAlgebra.const b) = b
  holds_decision : ∀ τ n, holds τ (decision n) = τ n
  holds_not : ∀ τ c, holds τ (BitAlgebra.not c) = !holds τ c
  holds_and : ∀ τ c d, holds τ (BitAlgebra.and c d) = (holds τ c && holds τ d)
  holds_or : ∀ τ c d, holds τ (BitAlgebra.or c d) = (holds τ c || holds τ d)
  holds_xor : ∀ τ c d, holds τ (BitAlgebra.xor c d) = (holds τ c ^^ holds τ d)
  holds_ite : ∀ τ c t e,
    holds τ (BitAlgebra.ite c t e) = if holds τ c then holds τ t else holds τ e
  ext : ∀ {c d : δ}, (∀ τ, holds τ c = holds τ d) → c = d
  constant?_iff : ∀ {c : δ} {b}, BitAlgebra.constant? c = some b ↔ c = BitAlgebra.const b
  unsolvable : ∀ {c}, leastSolution c = none → ∀ τ, holds τ c = false
  solves : ∀ {c ones}, leastSolution c = some ones → holds ones.contains c
  least : ∀ {c ones}, leastSolution c = some ones → ∀ τ, holds τ c →
    ∀ i, (∀ j < i, τ j = ones.contains j) → ones.contains i → τ i

/-- Conditions keep the laws. -/
theorem Condition.laws :
    DiagramLaws Condition.holds Condition.decision Condition.leastSolution where
  holds_const := holds_const
  holds_decision := holds_decision
  holds_not := holds_not
  holds_and := holds_and
  holds_or := holds_or
  holds_xor := holds_xor
  holds_ite := holds_ite
  ext := ext_holds
  constant?_iff := constant?_eq_some_iff
  unsolvable := leastSolution_eq_none
  solves h := (leastSolution_eq_some h).1
  least h := (leastSolution_eq_some h).2

namespace DiagramLaws

variable {holds : (Nat → Bool) → δ → Bool} {decision : Nat → δ}
  {leastSolution : δ → Option (List Nat)} (h : DiagramLaws holds decision leastSolution)
include h

/-- A diagram is known to be constant exactly when its function is. -/
theorem constant?_eq_some {c : δ} {b : Bool} :
    BitAlgebra.constant? c = some b ↔ ∀ τ, holds τ c = b := by
  rw [h.constant?_iff]
  constructor
  · rintro rfl τ
    exact h.holds_const τ b
  · exact fun hall => h.ext fun τ => (hall τ).trans (h.holds_const τ b).symm

/-- No decision is constant. -/
theorem constant?_decision (n : Nat) : BitAlgebra.constant? (decision n) = none := by
  refine Option.eq_none_iff_forall_ne_some.mpr fun b hb => ?_
  have hconst := h.constant?_eq_some.mp hb fun _ => !b
  rw [h.holds_decision] at hconst
  exact absurd hconst (by simp)

/-- Diagrams are read by their values under given decisions. -/
theorem isReading (τ : Nat → Bool) : IsReading (holds τ) where
  const := h.holds_const τ
  constant hc := congrArg some (h.constant?_eq_some.mp hc τ)
  not := h.holds_not τ
  and := h.holds_and τ
  or := h.holds_or τ
  xor := h.holds_xor τ
  ite := h.holds_ite τ

/-- Truth values are read as the diagrams of constants. -/
theorem isReading_const : IsReading (BitAlgebra.const : Bool → δ) where
  const _ := rfl
  constant hc := h.constant?_iff.mpr (congrArg _ (Option.some.inj hc))
  not x := h.ext fun τ => by
    rw [h.holds_not, h.holds_const, h.holds_const]
    rfl
  and x y := h.ext fun τ => by
    rw [h.holds_and, h.holds_const, h.holds_const, h.holds_const]
    rfl
  or x y := h.ext fun τ => by
    rw [h.holds_or, h.holds_const, h.holds_const, h.holds_const]
    rfl
  xor x y := h.ext fun τ => by
    rw [h.holds_xor, h.holds_const, h.holds_const, h.holds_const]
    rfl
  ite c t e := h.ext fun τ => by
    rw [h.holds_ite, h.holds_const, h.holds_const, h.holds_const, h.holds_const]
    rfl

end DiagramLaws
end CircuitSketch
