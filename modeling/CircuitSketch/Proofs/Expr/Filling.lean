import CircuitSketch.Proofs.Expr.Building
import CircuitSketch.Proofs.Expr.Substitution

/-!
# Filling in holes

What a substitution that leaves unsettled holes alone makes of an expression. Settled holes become
constants and settled choices their chosen sides, and every other node is kept with its parts filled
in. Values that fit their holes are all it takes for such a substitution to return.
-/
namespace CircuitSketch

open Build

/-- A value fits a hole: a number that a constant of the width of the hole accepts, or a constant of
that width. -/
inductive HoleValue.Fits (h : Hole) : HoleValue → Prop
  | number {n : Int} (ge : -(twoPow h.width : Int) ≤ n) (lt : n < twoPow h.width) :
      Fits h (.number n)
  | constant {tag value : Nat} (lt : value < twoPow h.width) : Fits h (.constant tag h.width value)

/-- All values fit their holes. -/
def Assignment.InRange (σ : Assignment) : Prop :=
  ∀ (h : Hole) (value : HoleValue), σ[h]? = some value → value.Fits h

theorem Assignment.inRange_empty : Assignment.InRange ∅ := by
  intro h value hvalue
  simp at hvalue

theorem Assignment.InRange.insert {σ : Assignment} (hσ : σ.InRange) {h : Hole} {value : HoleValue}
    (fits : value.Fits h) : Assignment.InRange (Std.HashMap.insert σ h value) := by
  intro k v hv
  rw [Std.HashMap.getElem?_insert] at hv
  split at hv
  · next heq =>
    obtain rfl := beq_iff_eq.mp heq
    cases hv
    exact fits
  · exact hσ k v hv

/-- A value that fits settles the hole. -/
theorem HoleValue.Fits.settle {h : Hole} {value : HoleValue} (fits : value.Fits h) (base : Nat) :
    ∃ tag, value.settle base h = .ok (tag, value.residue h) := by
  cases fits with
  | @number n ge lt =>
    exact ⟨base + h.tag, by rw [HoleValue.settle, if_pos ⟨ge, lt⟩]; rfl⟩
  | @constant tag value lt =>
    have hvalue : (HoleValue.constant tag h.width value).residue h = value := by
      rw [residue, toInt, Int.emod_eq_of_lt (by omega) (by omega), Int.toNat_natCast]
    exact ⟨tag, by rw [HoleValue.settle, if_pos rfl, hvalue]⟩

namespace Expr

/-- An expression with its settled holes filled in. New nodes have any tags. -/
inductive Filled (σ : Assignment) : Expr → Expr → Prop
  | settled {h : Hole} {value : HoleValue} {t : Nat} (settled : σ[h]? = some value) :
      Filled σ (hole h) (node t (.const h.width (value.residue h)) (.word h.width) [])
  | unsettled {h : Hole} (unsettled : σ[h]? = none) : Filled σ (hole h) (hole h)
  | node {t t' : Nat} {op : Op} {s : Shape} {args new : List Expr}
      (filled : List.Forall₂ (Filled σ) args new) : Filled σ (node t op s args) (node t' op s new)
  | chosen {t w : Nat} {a b x : Expr} {s : Hole} {value : HoleValue} (settled : σ[s]? = some value)
      (side : Filled σ (side value s a b) x) : Filled σ (choose t w a b s) x
  | choose {t t' w : Nat} {a b x y : Expr} {s : Hole} (unsettled : σ[s]? = none)
      (ifZero : Filled σ a x) (ifOne : Filled σ b y) :
      Filled σ (choose t w a b s) (choose t' w x y s)

variable {r : Substitution} {σ : Assignment}

namespace Filled

variable {t w : Nat} {a b x : Expr} {k s : Hole} {value : HoleValue}

theorem of_settled (h : Filled σ (hole k) x) (settled : σ[k]? = some value) :
    ∃ t, x = Expr.node t (.const k.width (value.residue k)) (.word k.width) [] := by
  cases h with
  | settled hvalue =>
    obtain rfl := Option.some.inj (settled.symm.trans hvalue)
    exact ⟨_, rfl⟩
  | unsettled hnone => cases settled.symm.trans hnone

theorem of_unsettled (h : Filled σ (hole k) x) (unsettled : σ[k]? = none) : x = hole k := by
  cases h with
  | settled hvalue => cases unsettled.symm.trans hvalue
  | unsettled => rfl

theorem of_node {op : Op} {s : Shape} {args : List Expr} (h : Filled σ (Expr.node t op s args) x) :
    ∃ u new, x = Expr.node u op s new ∧ List.Forall₂ (Filled σ) args new := by
  cases h with
  | node hnew => exact ⟨_, _, rfl, hnew⟩

theorem of_chosen (h : Filled σ (Expr.choose t w a b s) x) (settled : σ[s]? = some value) :
    Filled σ (Expr.side value s a b) x := by
  cases h with
  | chosen hvalue hside =>
    obtain rfl := Option.some.inj (settled.symm.trans hvalue)
    exact hside
  | choose hnone => cases settled.symm.trans hnone

theorem of_choose (h : Filled σ (Expr.choose t w a b s) x) (unsettled : σ[s]? = none) :
    ∃ u y z, x = Expr.choose u w y z s ∧ Filled σ a y ∧ Filled σ b z := by
  cases h with
  | chosen hvalue => cases unsettled.symm.trans hvalue
  | choose _ hy hz => exact ⟨_, _, _, rfl, hy, hz⟩

end Filled

/-- With new sides a choice keeps its width and its selector. -/
theorem exists_withSides (r : Substitution) (t w : Nat) (a b x y : Expr) (s : Hole) :
    ∃ t', withSides r t w a b x y s = choose t' w x y s := by
  unfold withSides
  split
  · next h => exact ⟨t, by rw [h.1, h.2]⟩
  · exact ⟨r.base + t, rfl⟩

theorem replace_settled {h : Hole} {value : HoleValue} (hvalue : r.assignment[h]? = some value)
    (fits : value.Fits h) : ∃ t, replace r (hole h) =
      .ok (node t (.const h.width (value.residue h)) (.word h.width) []) := by
  obtain ⟨tag, hsettle⟩ := fits.settle r.base
  exact ⟨tag, by simp only [replace, replaceHole, hvalue, hsettle]⟩

theorem replace_node {t : Nat} {op : Op} {s : Shape} {args new : List Expr}
    (h : replaceAll r args = .ok new) :
    replace r (node t op s args) = .ok (withArgs r t op s args new) := by
  rw [replace, h]

/-- A settled choice gives way to its chosen side. -/
theorem replace_chosen {t w : Nat} {a b : Expr} {s : Hole} {value : HoleValue}
    (hvalue : r.assignment[s]? = some value) (fits : value.Fits s) :
    replace r (choose t w a b s) = replace r (side value s a b) := by
  obtain ⟨tag, hsettle⟩ := fits.settle r.base
  simp only [replace, hvalue, hsettle, side]
  split <;> rfl

theorem replace_choose {t w : Nat} {a b x y : Expr} {s : Hole} (hs : r.assignment[s]? = none)
    (ha : replace r a = .ok x) (hb : replace r b = .ok y) :
    replace r (choose t w a b s) =
      if r.strict then .error (.noValue s) else .ok (withSides r t w a b x y s) := by
  simp only [replace, hs, ha, hb]

/-- A substitution that leaves unsettled holes alone returns, and fills in the settled ones. -/
theorem exists_replace (inRange : r.assignment.InRange) (lax : r.strict = false) (e : Expr) :
    ∃ x, replace r e = .ok x ∧ Filled r.assignment e x := by
  induction e using Expr.induction with
  | hole h =>
    cases hvalue : r.assignment[h]? with
    | some value =>
      obtain ⟨t, ht⟩ := replace_settled hvalue (inRange h value hvalue)
      exact ⟨_, ht, .settled hvalue⟩
    | none => exact ⟨hole h, by simp [replace, replaceHole, hvalue, lax], .unsettled hvalue⟩
  | node t op s args ih =>
    obtain ⟨new, hnew⟩ := exists_forall₂ ih
    obtain ⟨t', ht'⟩ := exists_withArgs r t op s args new
    refine ⟨_, replace_node (replaceAll_eq_ok.mpr (hnew.imp fun _ _ h => h.1)), ?_⟩
    rw [ht']
    exact .node (hnew.imp fun _ _ h => h.2)
  | choose t w a b s iha ihb =>
    obtain ⟨x, ha, hx⟩ := iha
    obtain ⟨y, hb, hy⟩ := ihb
    cases hvalue : r.assignment[s]? with
    | some value =>
      rw [replace_chosen hvalue (inRange s value hvalue)]
      by_cases hzero : value.residue s = 0
      · rw [side_of_zero hzero]
        exact ⟨x, ha, .chosen hvalue (by rwa [side_of_zero hzero])⟩
      · rw [side_of_ne_zero hzero]
        exact ⟨y, hb, .chosen hvalue (by rwa [side_of_ne_zero hzero])⟩
    | none =>
      obtain ⟨t', ht'⟩ := exists_withSides r t w a b x y s
      rw [replace_choose hvalue ha hb, lax, if_neg Bool.false_ne_true, ht']
      exact ⟨_, rfl, .choose hvalue hx hy⟩

/-- Nothing is filled in where no hole has a value. -/
theorem replace_eq_self (lax : r.strict = false) {e : Expr}
    (h : ∀ k, hole k ∈ e.preorder → r.assignment[k]? = none) : replace r e = .ok e := by
  induction e using Expr.induction with
  | hole k =>
    have hk := h k (by simp)
    simp [replace, replaceHole, hk, lax]
  | node t op s args ih =>
    have hargs : List.Forall₂ (fun e x => replace r e = .ok x) args args :=
      List.forall₂_same.mpr fun a ha => ih a ha fun k hk =>
        h k (mem_preorder_node.mpr (.inr ⟨a, ha, hk⟩))
    rw [replace_node (replaceAll_eq_ok.mpr hargs), withArgs, if_pos rfl]
  | choose t w a b s iha ihb =>
    have ha := iha fun k hk => h k (mem_preorder_choose.mpr (.inr (.inl hk)))
    have hb := ihb fun k hk => h k (mem_preorder_choose.mpr (.inr (.inr (.inl hk))))
    have hs := h s (by simp)
    rw [replace_choose hs ha hb, lax, if_neg Bool.false_ne_true, withSides, if_pos ⟨rfl, rfl⟩]

theorem Filled.of_side {a b x : Expr} {s : Hole} {value : HoleValue}
    (h : Filled σ (side value s a b) x) : Filled σ a x ∨ Filled σ b x := by
  rw [side] at h
  split at h
  · exact .inl h
  · exact .inr h

/-- A substitution that leaves unsettled holes alone returns what is filled in. -/
theorem exists_substitute (inRange : σ.InRange) (e : Expr) (next : Nat) :
    ∃ x, e.substitute σ false next = .ok (x, next + next) ∧ Filled σ e x := by
  obtain ⟨x, hx, hfilled⟩ := exists_replace (r := ⟨σ, false, next⟩) inRange rfl e
  refine ⟨x, ?_, hfilled⟩
  rw [substitute_eq_replace, hx]
  rfl

/-- Where no hole has a value, the expression itself is returned. -/
theorem substitute_eq_self {e : Expr} (h : ∀ k ∈ e.holes, σ[k]? = none) (next : Nat) :
    e.substitute σ false next = .ok (e, next + next) := by
  have hself : replace ⟨σ, false, next⟩ e = .ok e :=
    replace_eq_self rfl fun k hk => h k (mem_holes.mpr hk)
  rw [substitute_eq_replace, hself]
  rfl

/-- What is filled in keeps the shape. -/
theorem Filled.shape {e x : Expr} (h : Filled σ e x) (hw : e.WellFormed) : x.shape = e.shape := by
  induction e using Expr.induction generalizing x with
  | hole k => cases h <;> rfl
  | node t op s args ih =>
    cases h
    rfl
  | choose t w a b s iha ihb =>
    obtain ⟨⟨hsa, hsb, -⟩, hwa, hwb⟩ := wellFormed_choose.mp hw
    cases h with
    | choose => rfl
    | chosen _ hside =>
      rcases hside.of_side with hx | hx
      · exact (iha hx hwa).trans hsa
      · exact (ihb hx hwb).trans hsb

/-- What is filled in keeps the rule on shapes. -/
theorem Filled.wellFormed {e x : Expr} (h : Filled σ e x) (hw : e.WellFormed) : x.WellFormed := by
  induction e using Expr.induction generalizing x with
  | hole k =>
    cases h with
    | settled hvalue =>
      exact wellFormed_node.mpr
        ⟨.const (wellFormed_hole.mp hw) (HoleValue.residue_lt _ k), by simp⟩
    | unsettled => exact hw
  | node t op s args ih =>
    obtain ⟨ht, hargs⟩ := wellFormed_node.mp hw
    cases h with
    | @node _ _ _ _ _ new hnew =>
      have hshapes : new.map Expr.shape = args.map Expr.shape := by
        rw [← List.forall₂_eq_eq_eq, List.forall₂_map_left_iff, List.forall₂_map_right_iff]
        exact (forall₂_of_mem hnew fun a ha x hx => hx.shape (hargs a ha)).flip
      refine wellFormed_node.mpr ⟨by rwa [hshapes], fun x hx => ?_⟩
      obtain ⟨_, _, hwx⟩ := exists_of_forall₂_right
        (forall₂_of_mem hnew fun a ha y hy => ih a ha hy (hargs a ha)) hx
      exact hwx
  | choose t w a b s iha ihb =>
    obtain ⟨⟨hsa, hsb, one⟩, hwa, hwb⟩ := wellFormed_choose.mp hw
    cases h with
    | choose _ ha hb =>
      exact wellFormed_choose.mpr ⟨⟨(ha.shape hwa).trans hsa, (hb.shape hwb).trans hsb, one⟩,
        iha ha hwa, ihb hb hwb⟩
    | chosen _ hside =>
      rcases hside.of_side with hx | hx
      · exact iha hx hwa
      · exact ihb hx hwb

end Expr
end CircuitSketch
