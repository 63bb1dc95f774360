import CircuitSketch.Evaluation.Shared
import CircuitSketch.Expr.Substitute
import CircuitSketch.Proofs.Expr.Steps

/-!
# Evaluation and substitution read only what is there

A node asks again for what it needs each time it comes back to the top of the stack. So when a
choice is at last to be worked out, its selector has got a value meanwhile, and the sides that this
value calls for have theirs: the first request named the selector alone, and a later one the sides.
-/
namespace CircuitSketch.Expr

variable {β : Type} [BitAlgebra β]

/-- The values that the value of a node is worked out from are there. For a choice these are the
value of its selector and those of the sides that the bit of the selector calls for. -/
def HasOperands (t : Results (Value β)) : Expr → Prop
  | hole _ => True
  | node _ _ _ args => ∀ a ∈ args, a ∈ t
  | choose _ _ a b s => ∃ selector bit, t[hole s]? = some selector ∧ selector.firstBit = .ok bit ∧
      ∀ d ∈ sides bit a b, d ∈ t

/-- The replacements that the replacement of a node is made from are there. For a choice with a
settled selector this is that of the chosen side. -/
def HasParts (r : Substitution) (t : Results Expr) : Expr → Prop
  | hole _ => True
  | node _ _ _ args => ∀ a ∈ args, a ∈ t
  | choose _ _ a b s =>
    match r.assignment[s]? with
    | some value =>
      ∃ settled, value.settle r.base s = .ok settled ∧ (if settled.2 = 0 then a else b) ∈ t
    | none => a ∈ t ∧ b ∈ t ∧ hole s ∈ t

theorem hasOperands_of_due {c : Context β} {s : Pass.State (Value β)} {e : Expr}
    (h : (evaluation c).Due s e) : HasOperands s.results e := by
  obtain ⟨es, hneeds, hes⟩ := h.needs
  replace hneeds : needsForValue s.results e = .ok es := hneeds
  cases e with
  | hole k => trivial
  | node tag op shape args =>
    cases hneeds
    exact hes
  | choose tag w a b k =>
    obtain ⟨hnew, rfl⟩ | ⟨selector, bit, hselector, hbit, rfl⟩ := of_needsForValue_choose hneeds
    · exact absurd (hes _ List.mem_cons_self) hnew
    · exact ⟨selector, bit, hselector, hbit, hes⟩

theorem hasParts_of_due {r : Substitution} {s : Pass.State Expr} {e : Expr}
    (h : (substitution r).Due s e) : HasParts r s.results e := by
  obtain ⟨es, hneeds, hes⟩ := h.needs
  replace hneeds : needsForReplacement r e = .ok es := hneeds
  cases e with
  | hole k => trivial
  | node tag op shape args =>
    cases hneeds
    exact hes
  | choose tag w a b k =>
    rw [HasParts]
    obtain ⟨value, settled, hvalue, hsettled, rfl⟩ | ⟨hnone, rfl⟩ :=
      of_needsForReplacement_choose hneeds
    · rw [hvalue]
      exact ⟨settled, hsettled, hes _ List.mem_cons_self⟩
    · rw [hnone]
      exact ⟨hes a (by simp), hes b (by simp), hes (hole k) (by simp)⟩

/-- Evaluation over any bits and substitution are passes that come to an end on every expression,
with a result or for a cause of their own, after a number of steps that is linear in its size.
Whatever they read for a node is in their table by then, and no node is worked out twice. -/
theorem evaluate_substitute_complete (e : Expr) :
    (∀ {β : Type} [BitAlgebra β] (c : Context β),
      evaluate c e = (evaluation c).resume (evaluation_ready c) ∅ e ∧
      (∀ t, (evaluation c).Completes (evaluation_ready c) t e) ∧
      ∀ s x, (evaluation c).Due s x → HasOperands s.results x) ∧
    ∀ (assignment : Assignment) (strict : Bool) (base : Nat),
      let r : Substitution := ⟨assignment, strict, base⟩
      substitute e assignment strict base =
        ((substitution r).resume (substitution_ready r) ∅ e).map (fun x => (x, base + base)) ∧
      (∀ t, (substitution r).Completes (substitution_ready r) t e) ∧
      ∀ s x, (substitution r).Due s x → HasParts r s.results x := by
  refine ⟨fun c => ⟨rfl, fun t => Pass.completes (evaluation_ready c) t e,
    fun s x => hasOperands_of_due⟩, fun assignment strict base => ?_⟩
  intro r
  refine ⟨?_, fun t => Pass.completes (substitution_ready r) t e, fun s x => hasParts_of_due⟩
  rw [substitute]
  cases (substitution r).resume (substitution_ready r) ∅ e <;> rfl

end CircuitSketch.Expr
