import CircuitSketch.Proofs.Evaluation.Shape

/-!
# What the value of an expression depends on

Evaluation reads nothing but the holes and the variables that occur in an expression, and of the
number of a variable only what is left modulo the width.
-/
namespace CircuitSketch

variable {β : Type}

/-- Two numbers for a variable of width `w` make no difference. -/
def SameNumber (w : Nat) (m n : Option Int) : Prop :=
  m.map (· % (twoPow w : Int)) = n.map (· % (twoPow w : Int))

/-- Two contexts differ in nothing that an expression reads. -/
structure Context.AgreeOn (c d : Context β) (e : Expr) : Prop where
  modules : c.modules = d.modules
  inputs : ∀ t name w s args, .node t (.var name w) s args ∈ e.preorder →
    SameNumber w (c.input name) (d.input name)
  decisions : ∀ h, .hole h ∈ e.preorder → c.decision h = d.decision h

theorem Context.AgreeOn.of_mem {c d : Context β} {x e : Expr} (h : c.AgreeOn d e)
    (hx : x ∈ e.preorder) : c.AgreeOn d x where
  modules := h.modules
  inputs t name w s args hv := h.inputs t name w s args (Expr.mem_preorder_trans hv hx)
  decisions k hk := h.decisions k (Expr.mem_preorder_trans hk hx)

variable [BitAlgebra β]

theorem wordOf_congr {w : Nat} {m n : Int} (h : m % twoPow w = n % twoPow w) :
    (wordOf w m : Value β) = wordOf w n := by
  simp only [wordOf, Word.ofInt, h]

theorem Op.eval_congr {c d : Context β} (hm : c.modules = d.modules) (op : Op)
    (args : List (Value β))
    (hv : ∀ name w, op = .var name w → SameNumber w (c.input name) (d.input name)) :
    op.eval c args = op.eval d args := by
  cases op with
  | var name w =>
    cases args with
    | nil =>
      have h := hv name w rfl
      unfold SameNumber at h
      cases hc : c.input name <;> cases hd : d.input name <;> simp_all [Op.eval]
      exact wordOf_congr h
    | cons a args => rfl
  | primitive module ports outputs => simp only [Op.eval, placed, hm]
  | _ => rcases args with _ | ⟨_ | _ | _, _ | ⟨_ | _ | _, _ | _⟩⟩ <;> rfl

namespace Expr

theorem evalAll_congr {c d : Context β} {es : List Expr}
    (h : ∀ e ∈ es, eval c e = eval d e) : evalAll c es = evalAll d es := by
  induction es with
  | nil => rfl
  | cons e es ih =>
    rw [evalAll, evalAll, ih fun x hx => h x (by simp [hx]), h e (by simp)]

/-- Evaluation reads only the holes and the variables that occur. -/
theorem eval_congr {c d : Context β} {e : Expr} (h : c.AgreeOn d e) : eval c e = eval d e := by
  induction e using Expr.induction with
  | hole k => simp only [eval, h.decisions k (by simp)]
  | node t op s args ih =>
    have hall : evalAll c args = evalAll d args := evalAll_congr fun a ha =>
      ih a ha (h.of_mem (mem_preorder_node.mpr (.inr ⟨a, ha, a.mem_preorder_self⟩)))
    have hop (values : List (Value β)) : op.eval c values = op.eval d values :=
      op.eval_congr h.modules values fun name w hvar =>
        h.inputs t name w s args (hvar ▸ mem_preorder_self _)
    simp only [eval, hall, hop]
  | choose t w a b s iha ihb =>
    have ha := iha (h.of_mem (mem_preorder_choose.mpr (.inr (.inl a.mem_preorder_self))))
    have hb := ihb (h.of_mem (mem_preorder_choose.mpr (.inr (.inr (.inl b.mem_preorder_self)))))
    have hs : selectorBit c s = selectorBit d s := by
      simp only [selectorBit, h.decisions s (by simp)]
    simp only [eval, ha, hb, hs]

end Expr
end CircuitSketch
