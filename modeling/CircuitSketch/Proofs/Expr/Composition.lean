import CircuitSketch.Expr.Alike
import CircuitSketch.Proofs.Expr.Live

/-!
# Substitutions one after the other

A substitution that leaves unsettled holes alone can be followed by another one. Together they fill
in what a single substitution fills in that knows the values of both, where the first one has its
say on the holes that both settle. So the order does not matter if no hole is settled twice, and a
substitution that is repeated finds nothing to do.

Tags, recorded shapes and the way a position was given make no difference to whether expressions are
alike: they are if they are equal without these.
-/
namespace CircuitSketch

/-- An operation with its position given as a number. -/
def Op.plain : Op → Op
  | .item p => .item (.number p.toNat)
  | op => op

theorem Op.alike_iff {op op' : Op} : op.alike op' ↔ op.plain = op'.plain := by
  cases op <;> cases op' <;> simp [alike, plain]

namespace Expr

mutual
/-- An expression without its tags and recorded shapes. -/
def bare : Expr → Expr
  | hole h => hole h
  | node _ op _ args => node 0 op.plain (.word 0) (bareAll args)
  | choose _ _ a b s => choose 0 0 (bare a) (bare b) s

/-- Several expressions without their tags and recorded shapes. -/
def bareAll : List Expr → List Expr
  | [] => []
  | e :: rest => bare e :: bareAll rest
end

theorem bareAll_eq_map (es : List Expr) : bareAll es = es.map bare := by
  induction es with
  | nil => rfl
  | cons e es ih => rw [bareAll, ih, List.map_cons]

theorem alikeAll_iff {xs : List Expr} (ih : ∀ x ∈ xs, ∀ y : Expr, x.alike y ↔ x.bare = y.bare)
    (ys : List Expr) : alikeAll xs ys ↔ bareAll xs = bareAll ys := by
  induction xs generalizing ys with
  | nil => cases ys <;> simp [alikeAll, bareAll]
  | cons x xs ihxs =>
    cases ys with
    | nil => simp [alikeAll, bareAll]
    | cons y ys =>
      have hrest := ihxs (fun z hz => ih z (by simp [hz])) ys
      rw [alikeAll, bareAll, bareAll, Bool.and_eq_true, ih x (by simp), hrest, List.cons.injEq]

/-- Expressions are alike if they are equal without tags and recorded shapes. -/
theorem alike_iff {x y : Expr} : x.alike y ↔ x.bare = y.bare := by
  induction x using Expr.induction generalizing y with
  | hole h => cases y <;> simp [alike, bare]
  | node t op s args ih =>
    cases y with
    | node t' op' s' args' =>
      have hargs := alikeAll_iff (fun a ha y => ih a ha) args'
      rw [alike, Bool.or_eq_true, decide_eq_true_iff, Bool.and_eq_true, Op.alike_iff, hargs]
      simp only [bare, node.injEq, true_and]
      refine or_iff_right_of_imp ?_
      rintro ⟨-, rfl, -, rfl⟩
      exact ⟨rfl, rfl⟩
    | _ => simp [alike, bare]
  | choose t w a b s iha ihb =>
    cases y with
    | choose t' w' a' b' s' =>
      rw [alike, Bool.or_eq_true, decide_eq_true_iff, Bool.and_eq_true, Bool.and_eq_true, iha, ihb,
        beq_iff_eq]
      simp only [bare, choose.injEq, true_and, and_assoc]
      refine or_iff_right_of_imp ?_
      rintro ⟨-, -, rfl, rfl, rfl⟩
      exact ⟨rfl, rfl, rfl⟩
    | _ => simp [alike, bare]

variable {σ τ ρ : Assignment} {e x y z : Expr}

theorem map_bare_eq {args new twice once : List Expr} (h : List.Forall₂ (Filled σ) args new)
    (h' : List.Forall₂ (Filled τ) new twice) (both : List.Forall₂ (Filled ρ) args once)
    (ih : ∀ a ∈ args, ∀ x y z, Filled σ a x → Filled τ x y → Filled ρ a z → y.bare = z.bare) :
    twice.map bare = once.map bare := by
  induction h generalizing twice once with
  | nil =>
    cases h'
    cases both
    rfl
  | cons hx _ ihs =>
    cases h' with
    | cons hy hrest =>
      cases both with
      | cons hz hboth =>
        have hhead := ih _ (by simp) _ _ _ hx hy hz
        have htail := ihs hrest hboth fun a ha => ih a (by simp [ha])
        rw [List.map_cons, List.map_cons, hhead, htail]

/-- Filling in holes twice fills in what a single time with the values of both does. -/
theorem Filled.bare_eq (h : Filled σ e x) (h' : Filled τ x y) (both : Filled ρ e z)
    (hρ : ∀ k : Hole, ρ[k]? = σ[k]?.or τ[k]?) : y.bare = z.bare := by
  induction e using Expr.induction generalizing x y z with
  | hole k =>
    have hk := hρ k
    cases hσ : σ[k]? with
    | some value =>
      rw [hσ, Option.some_or] at hk
      obtain ⟨_, rfl⟩ := h.of_settled hσ
      obtain ⟨_, _, rfl, hnil⟩ := h'.of_node
      obtain ⟨_, rfl⟩ := both.of_settled hk
      cases hnil
      rfl
    | none =>
      rw [hσ, Option.none_or] at hk
      obtain rfl := h.of_unsettled hσ
      cases hτ : τ[k]? with
      | some value =>
        obtain ⟨_, rfl⟩ := h'.of_settled hτ
        obtain ⟨_, rfl⟩ := both.of_settled (hk.trans hτ)
        rfl
      | none => rw [h'.of_unsettled hτ, both.of_unsettled (hk.trans hτ)]
  | node t op s args ih =>
    obtain ⟨_, new, rfl, hnew⟩ := h.of_node
    obtain ⟨_, twice, rfl, htwice⟩ := h'.of_node
    obtain ⟨_, once, rfl, honce⟩ := both.of_node
    have hargs := map_bare_eq hnew htwice honce fun a ha _ _ _ hx hy hz => ih a ha hx hy hz
    simp only [bare, bareAll_eq_map, hargs]
  | choose t w a b s iha ihb =>
    have hs := hρ s
    cases hσ : σ[s]? with
    | some value =>
      rw [hσ, Option.some_or] at hs
      have hside := h.of_chosen hσ
      have hboth := both.of_chosen hs
      by_cases hzero : value.residue s = 0
      · rw [side_of_zero hzero] at hside hboth
        exact iha hside h' hboth
      · rw [side_of_ne_zero hzero] at hside hboth
        exact ihb hside h' hboth
    | none =>
      rw [hσ, Option.none_or] at hs
      obtain ⟨_, ifZero, ifOne, rfl, ha, hb⟩ := h.of_choose hσ
      cases hτ : τ[s]? with
      | some value =>
        have hside := h'.of_chosen hτ
        have hboth := both.of_chosen (hs.trans hτ)
        by_cases hzero : value.residue s = 0
        · rw [side_of_zero hzero] at hside hboth
          exact iha ha hside hboth
        · rw [side_of_ne_zero hzero] at hside hboth
          exact ihb hb hside hboth
      | none =>
        obtain ⟨_, _, _, rfl, ha', hb'⟩ := h'.of_choose hτ
        obtain ⟨_, _, _, rfl, ha'', hb''⟩ := both.of_choose (hs.trans hτ)
        simp only [bare, iha ha ha' ha'', ihb hb hb' hb'']

end Expr

namespace Assignment

variable {σ τ : Assignment}

/-- The values of two assignments, where the second one has its say on the holes of both. -/
theorem InRange.union (hσ : σ.InRange) (hτ : τ.InRange) : (τ ∪ σ).InRange := by
  intro h value hvalue
  rw [Std.HashMap.getElem?_union, Option.or_eq_some_iff] at hvalue
  rcases hvalue with hvalue | ⟨-, hvalue⟩
  · exact hσ h value hvalue
  · exact hτ h value hvalue

/-- No hole has a value under both of two assignments. -/
def Disjoint (σ τ : Assignment) : Prop := ∀ h : Hole, σ[h]? = none ∨ τ[h]? = none

theorem Disjoint.or_comm (h : σ.Disjoint τ) (k : Hole) : σ[k]?.or τ[k]? = τ[k]?.or σ[k]? := by
  rcases h k with hk | hk <;> rw [hk, Option.none_or, Option.or_none]

end Assignment

namespace Expr

/-- Two substitutions that leave unsettled holes alone do together what one does with the values of
both, where the first one has its say. They do so in either order if no hole is settled twice. The
first one repeated returns the very node, and the expression itself if it settles none of its
holes. -/
theorem substitute_substitute (e : Expr) {σ τ : Assignment} (hσ : σ.InRange) (hτ : τ.InRange)
    (n m l : Nat) : ∃ x y z, e.substitute σ false n = .ok (x, n + n) ∧
      x.substitute τ false m = .ok (y, m + m) ∧
      e.substitute (τ ∪ σ) false l = .ok (z, l + l) ∧ y.alike z ∧
      (σ.Disjoint τ → ∀ n' m', ∃ x' y', e.substitute τ false n' = .ok (x', n' + n') ∧
        x'.substitute σ false m' = .ok (y', m' + m') ∧ y'.alike y) ∧
      (∀ next, x.substitute σ false next = .ok (x, next + next)) ∧
      ((∀ h ∈ e.holes, σ[h]? = none) → x = e) := by
  obtain ⟨x, hx, hfilled⟩ := exists_substitute hσ e n
  obtain ⟨y, hy, htwice⟩ := exists_substitute hτ x m
  obtain ⟨z, hz, honce⟩ := exists_substitute (hσ.union hτ) e l
  have hunion : ∀ k : Hole, (τ ∪ σ)[k]? = σ[k]?.or τ[k]? := fun k => Std.HashMap.getElem?_union
  have hyz := hfilled.bare_eq htwice honce hunion
  refine ⟨x, y, z, hx, hy, hz, alike_iff.mpr hyz, fun hdisjoint n' m' => ?_, fun next => ?_,
    fun hnone => ?_⟩
  · obtain ⟨x', hx', hfilled'⟩ := exists_substitute hτ e n'
    obtain ⟨y', hy', htwice'⟩ := exists_substitute hσ x' m'
    have hyz' := hfilled'.bare_eq htwice' honce fun k => (hunion k).trans (hdisjoint.or_comm k)
    exact ⟨x', y', hx', hy', alike_iff.mpr (hyz'.trans hyz.symm)⟩
  · exact substitute_eq_self (fun k hk => (hfilled.mem_holes.mp hk).2) next
  · rw [substitute_eq_self hnone n] at hx
    cases hx
    rfl

/-- A choice and then the hole on its chosen side, settled in either order. -/
theorem substitute_substitute_choice :
    let b : Hole := ⟨0, 3, none⟩
    let c : Hole := ⟨1, 3, none⟩
    let s : Hole := ⟨2, 1, none⟩
    let e := choose 3 3 (hole b) (hole c) s
    let σ : Assignment := Std.HashMap.insert ∅ s (.number 1)
    let τ : Assignment := Std.HashMap.insert ∅ c (.number (-2))
    σ.InRange ∧ τ.InRange ∧ σ.Disjoint τ ∧ ∃ x y x' y', e.substitute σ false 4 = .ok (x, 8) ∧
      x.substitute τ false 8 = .ok (y, 16) ∧ e.substitute τ false 4 = .ok (x', 8) ∧
      x'.substitute σ false 8 = .ok (y', 16) ∧ y'.alike y := by
  intro b c s e σ τ
  have hσ : σ.InRange := Assignment.inRange_empty.insert (.number (by decide) (by decide))
  have hτ : τ.InRange := Assignment.inRange_empty.insert (.number (by decide) (by decide))
  have hdisjoint : σ.Disjoint τ := by
    intro h
    simp only [σ, τ, Std.HashMap.getElem?_insert, Std.HashMap.getElem?_empty, beq_iff_eq]
    by_cases hs : s = h
    · subst hs
      exact .inr (if_neg (by decide))
    · exact .inl (if_neg hs)
  obtain ⟨x, y, -, hx, hy, -, -, horder, -⟩ := substitute_substitute e hσ hτ 4 8 4
  obtain ⟨x', y', hx', hy', halike⟩ := horder hdisjoint 4 8
  exact ⟨hσ, hτ, hdisjoint, x, y, x', y', hx, hy, hx', hy', halike⟩

end Expr
end CircuitSketch
