import CircuitSketch.Expr.Substitute
import CircuitSketch.Proofs.Evaluation.Locality
import CircuitSketch.Proofs.Expr.Replacement

/-!
# Substituting and then evaluating

A strict substitution that succeeds leaves a circuit without holes. Evaluating the circuit does what
evaluating the expression does under the values that were put in: the two values are the same, and
where one evaluation fails so does the other. A hole that only an unchosen side needs stays unseen
by both.
-/
namespace CircuitSketch

/-- A constant that settles a hole holds a number of its own width. -/
def Assignment.Proper (σ : Assignment) : Prop :=
  ∀ (h : Hole) tag w n, σ[h]? = some (HoleValue.constant tag w n) → n < twoPow w

/-- A settled hole becomes the constant that its value is modulo the width. -/
theorem HoleValue.settle_eq_ok {base : Nat} {h : Hole} {value : HoleValue} {tag n : Nat}
    (hs : value.settle base h = .ok (tag, n))
    (proper : ∀ t w m, value = .constant t w m → m < twoPow w) :
    (n : Int) = value.toInt % twoPow h.width := by
  have hpos : (twoPow h.width : Int) ≠ 0 := by
    have := twoPow_pos h.width
    omega
  cases value with
  | number m =>
    rw [settle] at hs
    split at hs
    · simp only [Except.ok.injEq, Prod.mk.injEq] at hs
      obtain ⟨-, rfl⟩ := hs
      exact Int.toNat_of_nonneg (Int.emod_nonneg _ hpos)
    · cases hs
  | constant t w m =>
    rw [settle] at hs
    split at hs
    · next hw =>
      simp only [Except.ok.injEq, Prod.mk.injEq] at hs
      obtain ⟨-, rfl⟩ := hs
      have hm := proper t w m rfl
      rw [hw] at hm
      exact (Int.emod_eq_of_lt (by omega) (by omega)).symm
    · cases hs

/-- The word that a value is in a hole, as a number. -/
def HoleValue.residue (value : HoleValue) (h : Hole) : Nat := (value.toInt % twoPow h.width).toNat

theorem HoleValue.residue_lt (value : HoleValue) (h : Hole) : value.residue h < twoPow h.width := by
  have hpos := twoPow_pos h.width
  have hlt := Int.emod_lt_of_pos value.toInt (b := twoPow h.width) (by omega)
  rw [residue]
  omega

namespace Expr

variable {r : Substitution}

/-- With new operands a node keeps its operation and its shape. -/
theorem exists_withArgs (r : Substitution) (t : Nat) (op : Op) (s : Shape) (args new : List Expr) :
    ∃ t', withArgs r t op s args new = node t' op s new := by
  unfold withArgs
  split
  · next h => exact ⟨t, h ▸ rfl⟩
  · exact ⟨r.base + t, rfl⟩

/-- Under an assignment a circuit stands for an expression: it has no holes, has the shape of the
expression, and evaluates by itself to what the expression evaluates to. -/
structure StandsFor (σ : Assignment) (x e : Expr) : Prop where
  closed : ∀ h, hole h ∉ x.preorder
  shape : x.shape = e.shape
  kind : e.isWord = false → x.kind = e.kind
  eval : ∀ env modules, x.eval (.concrete env ∅ modules) = e.eval (.concrete env σ modules)

theorem standsFor_replaceHole {h : Hole} {x : Expr} (hσ : r.assignment.Proper)
    (strict : r.strict = true) (hx : replaceHole r h = .ok x) :
    StandsFor r.assignment x (hole h) := by
  unfold replaceHole at hx
  split at hx
  · next value hvalue =>
    split at hx
    · next tag n hn =>
      rw [Except.ok.injEq] at hx
      subst hx
      have hn := value.settle_eq_ok hn fun t w m hc => hσ h t w m (hc ▸ hvalue)
      refine ⟨by simp, rfl, by simp [isWord, Shape.isWord], fun env modules => ?_⟩
      simp [Expr.eval, evalAll, Op.eval, wordOf, Context.concrete, Assignment.bits?, hvalue,
        BitAlgebra.constants, BitAlgebra.const, Word.ofInt, hn]
    · cases hx
  · simp [strict] at hx

theorem standsFor_node {σ : Assignment} {t t' : Nat} {op : Op} {s : Shape} {args new : List Expr}
    (h : List.Forall₂ (StandsFor σ) new args) :
    StandsFor σ (node t' op s new) (node t op s args) := by
  refine ⟨fun k hk => ?_, rfl, fun _ => rfl, fun env modules => ?_⟩
  · simp only [mem_preorder_node, reduceCtorEq, false_or] at hk
    obtain ⟨x, hx, hk⟩ := hk
    obtain ⟨i, hi, rfl⟩ := List.getElem_of_mem hx
    have hlen := h.length_eq
    exact (List.forall₂_iff_get.mp h).2 i hi (hlen ▸ hi) |>.closed k hk
  · have hall : evalAll (.concrete env ∅ modules) new = evalAll (.concrete env σ modules) args := by
      induction h with
      | nil => rfl
      | cons hx _ ih => rw [evalAll, evalAll, ih, hx.eval]
    have hop (values : List (Value Bool)) :
        op.eval (.concrete env ∅ modules) values = op.eval (.concrete env σ modules) values :=
      op.eval_congr rfl values fun _ _ _ => rfl
    simp only [Expr.eval, hall, hop]

/-- The side of a settled choice. -/
def side (value : HoleValue) (s : Hole) (a b : Expr) : Expr := if value.residue s = 0 then a else b

theorem side_of_zero {value : HoleValue} {s : Hole} (h : value.residue s = 0) (a b : Expr) :
    side value s a b = a := if_pos h

theorem side_of_ne_zero {value : HoleValue} {s : Hole} (h : value.residue s ≠ 0) (a b : Expr) :
    side value s a b = b := if_neg h

/-- A settled choice evaluates as its chosen side. -/
theorem eval_choose_of_settled {env : Valuation} {σ : Assignment} {t w : Nat} {a b : Expr}
    {s : Hole} {value : HoleValue} (one : s.width = 1) (settled : σ[s]? = some value)
    (modules : ModuleTable) :
    eval (.concrete env σ modules) (choose t w a b s) =
      eval (.concrete env σ modules) (side value s a b) := by
  have hword : Word.ofInt s.width value.toInt = [(value.residue s).testBit 0] := by
    rw [Word.ofInt, Word.ofNat, HoleValue.residue, one]
    rfl
  have hbit : selectorBit (.concrete env σ modules) s = .ok ((value.residue s).testBit 0) := by
    have hbits : (Context.concrete env σ modules).decision s =
        some [(value.residue s).testBit 0] := by
      rw [← hword]
      simp [Context.concrete, Assignment.bits?, settled]
    rw [selectorBit, hbits]
  have hlt := value.residue_lt s
  rw [one, show twoPow 1 = 2 from rfl] at hlt
  rw [eval, hbit]
  by_cases hzero : value.residue s = 0
  · rw [side_of_zero hzero, hzero]
    rfl
  · have hone : value.residue s = 1 := by omega
    rw [side_of_ne_zero hzero, hone]
    rfl

theorem standsFor_replace {e x : Expr} (hw : e.WellFormed) (hσ : r.assignment.Proper)
    (strict : r.strict = true) (hx : replace r e = .ok x) : StandsFor r.assignment x e := by
  induction e using Expr.induction generalizing x with
  | hole h => exact standsFor_replaceHole hσ strict hx
  | node t op s args ih =>
    rw [replace] at hx
    split at hx
    · next new hnew =>
      rw [Except.ok.injEq] at hx
      obtain ⟨t', ht'⟩ := exists_withArgs r t op s args new
      rw [← hx, ht']
      have hargs := (wellFormed_node.mp hw).2
      exact standsFor_node
        (forall₂_of_mem (replaceAll_eq_ok.mp hnew) fun a ha y hy => ih a ha (hargs a ha) hy).flip
    · cases hx
  | choose t w a b s iha ihb =>
    obtain ⟨⟨hsa, hsb, hs⟩, hwa, hwb⟩ := wellFormed_choose.mp hw
    rw [replace] at hx
    split at hx
    · next value hvalue =>
      split at hx
      · next tag n hn =>
        have hresidue : value.residue s = n := by
          rw [HoleValue.residue, ← value.settle_eq_ok hn fun t w m hc => hσ s t w m (hc ▸ hvalue),
            Int.toNat_natCast]
        split at hx
        · next h0 =>
          obtain ⟨closed, shape, -, eval⟩ := iha hwa hx
          refine ⟨closed, shape.trans hsa, by simp [isWord, Shape.isWord], fun env modules => ?_⟩
          rw [eval, eval_choose_of_settled hs hvalue, side_of_zero (hresidue.trans h0)]
        · next h0 =>
          obtain ⟨closed, shape, -, eval⟩ := ihb hwb hx
          refine ⟨closed, shape.trans hsb, by simp [isWord, Shape.isWord], fun env modules => ?_⟩
          rw [eval, eval_choose_of_settled hs hvalue, side_of_ne_zero (hresidue.trans_ne h0)]
      · cases hx
    · split at hx
      · cases hx
      · split at hx
        · cases hx
        · simp [strict] at hx

theorem StandsFor.interpret {σ : Assignment} {x e : Expr} (h : StandsFor σ x e) (env : Valuation)
    (modules : ModuleTable) : x.interpret env ∅ modules = e.interpret env σ modules := by
  have hword : x.isWord = e.isWord := by simp only [isWord, h.shape]
  unfold Expr.interpret
  rw [hword, evaluate_eq_eval, evaluate_eq_eval, h.eval]
  by_cases he : e.isWord = true
  · simp [he]
  · rw [Bool.not_eq_true] at he
    simp [he, h.kind he]

/-- Interpreting the circuit that a strict substitution yields is interpreting the expression under
the assignment: both give the same number, or both fail in the same way. -/
theorem interpret_substitute {e x : Expr} {σ : Assignment} {next next' : Nat} (hw : e.WellFormed)
    (hσ : σ.Proper) (h : e.substitute σ true next = .ok (x, next')) :
    x.holes = [] ∧ x.shape = e.shape ∧ x.width = e.width ∧
      ∀ env modules, x.interpret env ∅ modules = e.interpret env σ modules := by
  have hx : replace ⟨σ, true, next⟩ e = .ok x := by
    rw [substitute_eq_replace] at h
    cases hr : replace ⟨σ, true, next⟩ e with
    | error err => simp [hr, Except.map] at h
    | ok y =>
      simp only [hr, Except.map, Except.ok.injEq, Prod.mk.injEq] at h
      rw [h.1]
  have hstands : StandsFor σ x e := standsFor_replace hw hσ rfl hx
  refine ⟨?_, hstands.shape, by simp only [width, hstands.shape], hstands.interpret⟩
  rw [List.eq_nil_iff_forall_not_mem]
  intro k hk
  exact hstands.closed k (mem_holes.mp hk)

/-- A choice whose selector is one; the hole on its other side is left open. -/
theorem interpret_substitute_choice :
    let a : Hole := ⟨0, 3, none⟩
    let b : Hole := ⟨1, 3, none⟩
    let s : Hole := ⟨2, 1, none⟩
    let e := choose 3 3 (hole a) (hole b) s
    let σ : Assignment := Std.HashMap.insert (Std.HashMap.insert ∅ s (.number 1)) b (.number (-2))
    let x := node 5 (.const 3 6) (.word 3) []
    e.WellFormed ∧ σ.Proper ∧ e.substitute σ true 4 = .ok (x, 8) ∧
      x.holes = [] ∧ x.shape = e.shape ∧ x.width = e.width ∧
        ∀ env modules, x.interpret env ∅ modules = e.interpret env σ modules := by
  intro a b s e σ x
  have hs : σ[s]? = some (.number 1) := by
    rw [Std.HashMap.getElem?_insert, if_neg (by decide), Std.HashMap.getElem?_insert_self]
  have hb : σ[b]? = some (.number (-2)) := Std.HashMap.getElem?_insert_self
  have hw : e.WellFormed := by simp [e, a, b, s]
  have hσ : σ.Proper := by
    intro h tag w n hn
    simp only [σ, Std.HashMap.getElem?_insert, Std.HashMap.getElem?_empty] at hn
    split at hn
    · cases hn
    · split at hn <;> cases hn
  have hx : e.substitute σ true 4 = .ok (x, 8) := by
    have hbit : (HoleValue.number 1).settle 4 s = .ok (6, 1) := rfl
    have hword : (HoleValue.number (-2)).settle 4 b = .ok (5, 6) := rfl
    rw [substitute_eq_replace]
    simp only [e, replace, replaceHole, hs, hb, hbit, hword]
    rfl
  exact ⟨hw, hσ, hx, interpret_substitute hw hσ hx⟩

end Expr
end CircuitSketch
