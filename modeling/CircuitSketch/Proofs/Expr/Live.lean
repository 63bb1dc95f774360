import CircuitSketch.Proofs.Expr.Accepting
import CircuitSketch.Proofs.Expr.Filling
import Mathlib.Logic.Relation

/-!
# What a partial substitution leaves

A settled choice leads only to its chosen side, and every other node to all of its parts. What a
substitution leaves are the holes without a value that can be reached in this way, and no others:
the unchosen sides and the settled selectors are not looked at. A substitution that is strict
returns the same expression if there are no such holes, and otherwise names one of them.
-/
namespace CircuitSketch.Expr

open Build

/-- The nodes that a substitution looks at next. -/
def leadsTo (σ : Assignment) : Expr → List Expr
  | choose _ _ a b s =>
    match σ[s]? with
    | some value => [side value s a b]
    | none => [a, b, hole s]
  | e => e.children

/-- A node that a substitution of an expression looks at. -/
def Live (σ : Assignment) : Expr → Expr → Prop :=
  Relation.ReflTransGen fun x y => y ∈ x.leadsTo σ

/-- A live hole without a value. -/
def Open (σ : Assignment) (e : Expr) (h : Hole) : Prop := Live σ e (hole h) ∧ σ[h]? = none

section Open

variable {σ : Assignment} {k : Hole}

/-- A hole is open if it is the expression itself, or open in something that the expression leads
to. -/
theorem open_iff {e : Expr} : Open σ e k ↔
    (e = hole k ∧ σ[k]? = none) ∨ ∃ y ∈ e.leadsTo σ, Open σ y k := by
  rw [Open, Live, Relation.ReflTransGen.cases_head_iff, or_and_right]
  simp only [Open, Live, ← and_assoc, exists_and_right]

theorem open_hole {h : Hole} : Open σ (hole h) k ↔ h = k ∧ σ[k]? = none := by
  rw [open_iff]
  simp [leadsTo]

theorem open_node {t : Nat} {op : Op} {s : Shape} {args : List Expr} :
    Open σ (node t op s args) k ↔ ∃ a ∈ args, Open σ a k := by
  rw [open_iff]
  simp [leadsTo]

theorem open_chosen {t w : Nat} {a b : Expr} {s : Hole} {value : HoleValue}
    (settled : σ[s]? = some value) :
    Open σ (choose t w a b s) k ↔ Open σ (side value s a b) k := by
  rw [open_iff]
  simp [leadsTo, settled]

theorem open_choose {t w : Nat} {a b : Expr} {s : Hole} (unsettled : σ[s]? = none) :
    Open σ (choose t w a b s) k ↔ Open σ a k ∨ Open σ b k ∨ s = k := by
  have hs : Open σ (hole s) k ↔ s = k := by
    rw [open_hole, and_iff_left_iff_imp]
    rintro rfl
    exact unsettled
  rw [open_iff]
  simp [leadsTo, unsettled, hs]

/-- The holes that are left are the open ones. -/
theorem Filled.mem_holes {e x : Expr} (h : Filled σ e x) : k ∈ x.holes ↔ Open σ e k := by
  induction e using Expr.induction generalizing x with
  | hole j =>
    rw [open_hole]
    cases h with
    | settled hvalue =>
      have hk : j = k → σ[k]? ≠ none := by
        rintro rfl
        simp [hvalue]
      simpa [mem_holes_node] using hk
    | unsettled hnone =>
      rw [mem_holes_hole]
      constructor
      · rintro rfl
        exact ⟨rfl, hnone⟩
      · rintro ⟨rfl, -⟩
        rfl
  | node t op s args ih =>
    rw [open_node]
    cases h with
    | node hnew =>
      have hall := forall₂_of_mem hnew fun a ha y hy => ih a ha hy
      rw [mem_holes_node]
      constructor
      · rintro ⟨y, hy, hk⟩
        obtain ⟨a, ha, hopen⟩ := exists_of_forall₂_right hall hy
        exact ⟨a, ha, hopen.mp hk⟩
      · rintro ⟨a, ha, hopen⟩
        obtain ⟨y, hy, hk⟩ := exists_of_forall₂_left hall ha
        exact ⟨y, hy, hk.mpr hopen⟩
  | choose t w a b s iha ihb =>
    cases h with
    | choose hs ha hb =>
      rw [open_choose hs, ← iha ha, ← ihb hb]
      simp [Expr.mem_holes, eq_comm]
    | @chosen _ _ _ _ _ _ value hvalue hside =>
      rw [open_chosen hvalue]
      by_cases hzero : value.residue s = 0
      · rw [side_of_zero hzero] at hside ⊢
        exact iha hside
      · rw [side_of_ne_zero hzero] at hside ⊢
        exact ihb hside

end Open

section Strict

variable {σ : Assignment} {base : Nat}

/-- A strict run objects to one of some holes; if there are none, it does what a lax run does. -/
def Objects {α : Type} (holes : Hole → Prop) (strict lax : Except SubstError α) : Prop :=
  (∃ k, holes k ∧ strict = .error (.noValue k)) ∨ (∀ k, ¬ holes k) ∧ strict = lax

/-- The first of several expressions that has an open hole is objected to. -/
theorem objects_replaceAll (inRange : σ.InRange) {args : List Expr}
    (ih : ∀ a ∈ args, Objects (Open σ a) (replace ⟨σ, true, base⟩ a) (replace ⟨σ, false, base⟩ a)) :
    Objects (fun k => ∃ a ∈ args, Open σ a k) (replaceAll ⟨σ, true, base⟩ args)
      (replaceAll ⟨σ, false, base⟩ args) := by
  induction args with
  | nil => exact .inr ⟨by simp, rfl⟩
  | cons a args ihargs =>
    obtain ⟨x, hx, -⟩ := exists_replace (r := ⟨σ, false, base⟩) inRange rfl a
    rcases ih a (by simp) with ⟨k, hopen, herror⟩ | ⟨hclosed, hsame⟩
    · exact .inl ⟨k, ⟨a, by simp, hopen⟩, by rw [replaceAll, herror]⟩
    rcases ihargs fun b hb => ih b (by simp [hb]) with ⟨k, ⟨b, hb, hopen⟩, herror⟩ | ⟨hrest, heq⟩
    · exact .inl ⟨k, ⟨b, by simp [hb], hopen⟩, by rw [replaceAll, hsame, hx, herror]⟩
    · refine .inr ⟨fun k hk => ?_, by rw [replaceAll, replaceAll, hsame, heq]⟩
      obtain ⟨b, hb, hopen⟩ := hk
      rcases List.mem_cons.mp hb with rfl | hb
      · exact hclosed k hopen
      · exact hrest k ⟨b, hb, hopen⟩

/-- Being strict only matters where a hole is open, and then one of the open holes is the error. -/
theorem objects_replace (inRange : σ.InRange) (base : Nat) (e : Expr) :
    Objects (Open σ e) (replace ⟨σ, true, base⟩ e) (replace ⟨σ, false, base⟩ e) := by
  induction e using Expr.induction with
  | hole h =>
    cases hvalue : σ[h]? with
    | some value =>
      refine .inr ⟨fun k hk => ?_, by simp only [replace, replaceHole, hvalue]⟩
      obtain ⟨rfl, hnone⟩ := open_hole.mp hk
      simp [hvalue] at hnone
    | none =>
      exact .inl ⟨h, open_hole.mpr ⟨rfl, hvalue⟩, by simp [replace, replaceHole, hvalue]⟩
  | node t op s args ih =>
    rcases objects_replaceAll inRange ih with ⟨k, hopen, herror⟩ | ⟨hclosed, hsame⟩
    · exact .inl ⟨k, open_node.mpr hopen, by rw [replace, herror]⟩
    · refine .inr ⟨fun k hk => hclosed k (open_node.mp hk), ?_⟩
      rw [replace, replace, hsame]
      rfl
  | choose t w a b s iha ihb =>
    cases hvalue : σ[s]? with
    | some value =>
      have hreplace : ∀ strict, replace ⟨σ, strict, base⟩ (choose t w a b s) =
          replace ⟨σ, strict, base⟩ (side value s a b) := fun strict =>
        replace_chosen (r := ⟨σ, strict, base⟩) hvalue (inRange s value hvalue)
      rw [Objects, hreplace, hreplace]
      simp only [open_chosen hvalue]
      rw [side]
      split
      · exact iha
      · exact ihb
    | none =>
      obtain ⟨x, hx, -⟩ := exists_replace (r := ⟨σ, false, base⟩) inRange rfl a
      obtain ⟨y, hy, -⟩ := exists_replace (r := ⟨σ, false, base⟩) inRange rfl b
      left
      rcases iha with ⟨k, hopen, herror⟩ | ⟨-, ha⟩
      · exact ⟨k, (open_choose hvalue).mpr (.inl hopen), by simp only [replace, hvalue, herror]⟩
      rcases ihb with ⟨k, hopen, herror⟩ | ⟨-, hb⟩
      · refine ⟨k, (open_choose hvalue).mpr (.inr (.inl hopen)), ?_⟩
        simp only [replace, hvalue, ha, hx, herror]
      · refine ⟨s, (open_choose hvalue).mpr (.inr (.inr rfl)), ?_⟩
        rw [replace_choose hvalue (ha.trans hx) (hb.trans hy), if_pos rfl]

end Strict

/-- A substitution that leaves unsettled holes alone returns an expression of the same shape, whose
holes are the open ones. A strict one objects to an open hole, or returns the same expression if
there is none. No check of a constructor would turn down any node of what is returned. -/
theorem substitute_open {e : Expr} {σ : Assignment} (hw : e.WellFormed) (hσ : σ.InRange)
    (next : Nat) : ∃ x last, e.substitute σ false next = .ok (x, last) ∧ x.shape = e.shape ∧
      x.width = e.width ∧ (∀ h, h ∈ x.holes ↔ Open σ e h) ∧
      ((∃ h, Open σ e h) → ∃ h, Open σ e h ∧ e.substitute σ true next = .error (.noValue h)) ∧
      ((∀ h, ¬ Open σ e h) → e.substitute σ true next = .ok (x, last)) ∧
      ∀ y ∈ x.preorder, y.checked y.tag = .ok (y, y.tag + 1) := by
  obtain ⟨x, hx, hfilled⟩ := exists_substitute hσ e next
  have hshape := hfilled.shape hw
  have hwx := hfilled.wellFormed hw
  refine ⟨x, next + next, hx, hshape, by rw [width, width, hshape], fun h => hfilled.mem_holes, ?_,
    ?_, fun y hy => (hwx.of_mem hy).checked_eq_ok⟩
  · rintro ⟨h, hopen⟩
    rcases objects_replace hσ next e with ⟨k, hk, herror⟩ | ⟨hclosed, -⟩
    · refine ⟨k, hk, ?_⟩
      rw [substitute_eq_replace, herror]
      rfl
    · exact absurd hopen (hclosed h)
  · intro hclosed
    rcases objects_replace hσ next e with ⟨k, hk, -⟩ | ⟨-, hsame⟩
    · exact absurd hk (hclosed k)
    · rw [← hx, substitute_eq_replace, substitute_eq_replace, hsame]

/-- A sum of a settled hole and a settled choice between two holes: the hole on the chosen side is
left, and a strict substitution objects to it. -/
theorem substitute_open_sum :
    let a : Hole := ⟨0, 2, none⟩
    let b : Hole := ⟨1, 2, none⟩
    let c : Hole := ⟨2, 2, none⟩
    let s : Hole := ⟨3, 1, none⟩
    let e := node 5 (.binary .add) (.word 2) [hole a, choose 4 2 (hole b) (hole c) s]
    let σ : Assignment := Std.HashMap.insert (Std.HashMap.insert ∅ s (.number (-1))) a (.number 3)
    e.WellFormed ∧ σ.InRange ∧ ∃ x last, e.substitute σ false 6 = .ok (x, last) ∧
      (∀ h, h ∈ x.holes ↔ h = c) ∧ e.substitute σ true 6 = .error (.noValue c) := by
  intro a b c s e σ
  have hget : ∀ h, σ[h]? = if a = h then some (.number 3) else
      if s = h then some (.number (-1)) else none := by
    intro h
    simp only [σ, Std.HashMap.getElem?_insert, Std.HashMap.getElem?_empty, beq_iff_eq]
  have hw : e.WellFormed := by
    have hsum : (Op.binary .add).Typed [.word 2, .word 2] (.word 2) := .binary
    simpa [e, a, b, c, s] using hsum
  have hσ : σ.InRange :=
    (Assignment.inRange_empty.insert (.number (by decide) (by decide))).insert
      (.number (by decide) (by decide))
  have hs : σ[s]? = some (.number (-1)) := (hget s).trans rfl
  have hside : side (.number (-1)) s (hole b) (hole c) = hole c := rfl
  have hopen : ∀ h, Open σ e h ↔ h = c := by
    intro h
    rw [open_node]
    simp only [List.mem_cons, List.not_mem_nil, or_false, exists_eq_or_imp, exists_eq_left]
    rw [open_hole, open_chosen hs, hside, open_hole, hget]
    constructor
    · rintro (⟨rfl, hnone⟩ | ⟨rfl, -⟩)
      · simp at hnone
      · rfl
    · rintro rfl
      exact .inr ⟨rfl, by decide⟩
  obtain ⟨x, last, hx, -, -, hholes, hstrict, -, -⟩ := substitute_open hw hσ 6
  obtain ⟨h, hh, herror⟩ := hstrict ⟨c, (hopen c).mpr rfl⟩
  obtain rfl := (hopen h).mp hh
  exact ⟨hw, hσ, x, last, hx, fun h => (hholes h).trans (hopen h), herror⟩

end CircuitSketch.Expr
