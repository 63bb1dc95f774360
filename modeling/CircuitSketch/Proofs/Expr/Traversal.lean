import CircuitSketch.Proofs.Evaluation.Variables
import Mathlib.Logic.Relation

/-!
# Walking with a stack

A walk needs no recursion. A stack holds the nodes that are still to be looked at; the one on top is
dropped if it was met before, and otherwise it is noted and gives way to its children. A node may be
on the stack several times, and what is pushed may have been met already. The stack nevertheless
goes the way of the recursive reading: what a node leaves on top of the stack is gone before what is
below it is looked at. So the nodes come in the order of the reading from the top and from left to
right, repetitions left out.
-/
namespace CircuitSketch

namespace Expr

/-- The reading of a node is the node and then the readings of its children. -/
theorem preorder_eq_cons (e : Expr) : e.preorder = e :: e.children.flatMap preorder := by
  have hall (es : List Expr) : preorderAll es = es.flatMap preorder := by
    induction es with
    | nil => rfl
    | cons e es ih => rw [preorderAll, ih, List.flatMap_cons]
  cases e with
  | hole h => rfl
  | node t op s args => rw [preorder, hall, children_node]
  | choose t w a b s => simp [preorder]

end Expr

namespace Visited

/-- Looks at the nodes of a stack, the top one first, until none is left. -/
def run (v : Visited) (stack : List Expr) : Visited :=
  match stack with
  | [] => v
  | e :: rest => if v.seen.contains e then run v rest else run (v.add e) (e.children ++ rest)
termination_by (stack.flatMap Expr.preorder).length
decreasing_by
  · simp only [List.flatMap_cons, List.length_append, Expr.preorder_eq_cons e, List.length_cons]
    omega
  · simp only [List.flatMap_cons, List.flatMap_append, List.length_append,
      Expr.preorder_eq_cons e, List.length_cons]
    omega

theorem run_nil (v : Visited) : v.run [] = v := by rw [run]

theorem run_cons_of_seen {v : Visited} {e : Expr} (h : v.seen.contains e) (rest : List Expr) :
    v.run (e :: rest) = v.run rest := by rw [run, if_pos h]

theorem run_cons_of_not_seen {v : Visited} {e : Expr} (h : ¬ v.seen.contains e)
    (rest : List Expr) : v.run (e :: rest) = (v.add e).run (e.children ++ rest) := by
  rw [run, if_neg h]

theorem run_append {es : List Expr}
    (ih : ∀ e ∈ es, ∀ (v : Visited) (rest : List Expr), v.run (e :: rest) = (v.visit e).run rest)
    (v : Visited) (rest : List Expr) : v.run (es ++ rest) = (v.visitAll es).run rest := by
  induction es generalizing v with
  | nil => rfl
  | cons e es ihes =>
    rw [List.cons_append, ih e (by simp), visitAll]
    exact ihes (fun x hx => ih x (by simp [hx])) _

/-- With the node on top of the stack the run does what reading it does, and goes on below. -/
theorem run_cons (e : Expr) (v : Visited) (rest : List Expr) :
    v.run (e :: rest) = (v.visit e).run rest := by
  induction e using Expr.induction generalizing v rest with
  | hole h =>
    by_cases hs : v.seen.contains (.hole h)
    · rw [run_cons_of_seen hs, visit, if_pos hs]
    · rw [run_cons_of_not_seen hs, visit, if_neg hs]
      rfl
  | node t op s args ih =>
    by_cases hs : v.seen.contains (.node t op s args)
    · rw [run_cons_of_seen hs, visit, if_pos hs]
    · rw [run_cons_of_not_seen hs, visit, if_neg hs]
      exact run_append ih _ rest
  | choose t w a b s iha ihb =>
    by_cases hs : v.seen.contains (.choose t w a b s)
    · rw [run_cons_of_seen hs, visit, if_pos hs]
    · rw [run_cons_of_not_seen hs, visit, if_neg hs, Expr.children_choose]
      simp only [List.cons_append, List.nil_append, iha, ihb]
      split
      · next hm => exact run_cons_of_seen hm rest
      · next hm => exact run_cons_of_not_seen hm rest

/-- The stack goes the way of the recursive reading. -/
theorem toList_run (e : Expr) : (empty.run [e]).toList = e.walk := by
  rw [run_cons, run_nil, Expr.walk]

end Visited

/-- First occurrences can be taken before or after what is looked for is picked out. -/
theorem filterMap_eraseDups {α γ : Type} [BEq α] [LawfulBEq α] [BEq γ] [LawfulBEq γ]
    {f : α → Option γ} (inj : ∀ x y c, f x = some c → f y = some c → x = y) (es : List α) :
    es.eraseDups.filterMap f = (es.filterMap f).eraseDups := by
  induction hn : es.length using Nat.strong_induction_on generalizing es with
  | _ n ih =>
    cases es with
    | nil => simp
    | cons e es =>
      have hlt : (es.filter fun x => !x == e).length < n := by
        rw [← hn]
        exact Nat.lt_succ_of_le (List.length_filter_le _ _)
      rw [List.eraseDups_cons]
      cases he : f e with
      | none =>
        have hsame : (es.filter fun x => !x == e).filterMap f = es.filterMap f := by
          rw [List.filterMap_filter]
          apply List.filterMap_congr
          intro x _
          by_cases hx : x = e <;> simp [hx, he]
        rw [List.filterMap_cons_none he, List.filterMap_cons_none he, ih _ hlt _ rfl, hsame]
      | some c =>
        have hsame : (es.filter fun x => !x == e).filterMap f =
            (es.filterMap f).filter fun y => !y == c := by
          rw [List.filterMap_filter, List.filter_filterMap]
          apply List.filterMap_congr
          intro x _
          by_cases hx : x = e
          · simp [hx, he, Option.filter]
          · have hne : f x ≠ some c := fun hc => hx (inj x e c hc he)
            cases hfx : f x with
            | none => simp [hx]
            | some d =>
              have hd : d ≠ c := fun h => hne (h ▸ hfx)
              simp [hx, hd, Option.filter]
        rw [List.filterMap_cons_some he, List.filterMap_cons_some he, List.eraseDups_cons,
          ih _ hlt _ rfl, hsame]

namespace Expr

/-- A node that can be reached from an expression by going from nodes to their children. -/
def Reaches : Expr → Expr → Prop := Relation.ReflTransGen fun x y => y ∈ x.children

/-- What occurs in an expression is what can be reached from it. -/
theorem mem_preorder_iff_reaches {x e : Expr} : x ∈ e.preorder ↔ e.Reaches x := by
  constructor
  · intro h
    induction e using Expr.induction with
    | hole k =>
      rw [mem_preorder_hole] at h
      exact h ▸ .refl
    | node t op s args ih =>
      rcases mem_preorder_node.mp h with rfl | ⟨a, ha, hx⟩
      · exact .refl
      · exact .head ha (ih a ha hx)
    | choose t w a b s iha ihb =>
      rcases mem_preorder_choose.mp h with rfl | hx | hx | rfl
      · exact .refl
      · exact .head (by simp) (iha hx)
      · exact .head (by simp) (ihb hx)
      · exact .single (by simp)
  · intro h
    induction h with
    | refl => exact e.mem_preorder_self
    | @tail y z hy hz ih =>
      refine mem_preorder_trans ?_ ih
      rw [preorder_eq_cons]
      exact List.mem_cons_of_mem _ (List.mem_flatMap.mpr ⟨z, hz, z.mem_preorder_self⟩)

/-- The holes are the first occurrences of holes. -/
theorem holes_eq_eraseDups (e : Expr) : e.holes = (e.preorder.filterMap asHole?).eraseDups := by
  rw [holes, walk_eq_eraseDups]
  apply filterMap_eraseDups
  intro x y h hx hy
  rw [asHole?_eq_some.mp hx, asHole?_eq_some.mp hy]

/-- Variables are added as long as no name comes with two widths. -/
theorem exists_foldlM_addVariable (known added : List (String × Nat))
    (hn : (known.map (·.1)).Nodup)
    (one : ∀ u ∈ known ++ added, ∀ v ∈ known ++ added, u.1 = v.1 → u.2 = v.2) :
    ∃ vars, added.foldlM (fun known v => addVariable known v.1 v.2) known = .ok vars := by
  induction added generalizing known with
  | nil => exact ⟨known, rfl⟩
  | cons v added ih =>
    have hstep : ∃ next, addVariable known v.1 v.2 = .ok next ∧ Extends known [v] next := by
      unfold addVariable
      cases hlookup : known.lookup v.1 with
      | none => exact ⟨_, rfl, .append hn hlookup⟩
      | some first =>
        have hmem : (v.1, first) ∈ known := mem_of_lookup_eq_some hlookup
        have hwidth : first = v.2 := one (v.1, first) (by simp [hmem]) v (by simp) rfl
        exact ⟨known, if_pos hwidth, .known hn (hwidth ▸ hlookup)⟩
    obtain ⟨next, hnext, hext⟩ := hstep
    have hsub : ∀ u ∈ next ++ added, u ∈ known ++ v :: added := by
      intro u hu
      rw [List.mem_append, hext.mem] at hu
      simpa [or_assoc] using hu
    obtain ⟨vars, hvars⟩ := ih next hext.nodup fun u hu w hw => one u (hsub u hu) w (hsub w hw)
    refine ⟨vars, ?_⟩
    rw [List.foldlM_cons, hnext]
    exact hvars

/-- The variables have no list of their own exactly when a name occurs with two widths. -/
theorem freeVars_error_iff {e : Expr} :
    (∃ err, e.freeVars = .error err) ↔
      ∃ name v w, v ≠ w ∧ e.HasVariable (name, v) ∧ e.HasVariable (name, w) := by
  constructor
  · rintro ⟨err, herr⟩
    by_contra hnone
    have hmem : ∀ v, v ∈ e.walk.filterMap asVariable? → e.HasVariable v := by
      intro v hv
      obtain ⟨x, hx, hxv⟩ := List.mem_filterMap.mp hv
      obtain ⟨t, s, args, rfl⟩ := asVariable?_eq_some.mp hxv
      exact ⟨t, s, args, mem_walk.mp hx⟩
    obtain ⟨vars, hvars⟩ := exists_foldlM_addVariable [] (e.walk.filterMap asVariable?) (by simp)
      fun u hu v hv hname => by
        by_contra hne
        exact hnone ⟨u.1, u.2, v.2, hne, hmem u hu, hname ▸ hmem v hv⟩
    rw [freeVars, hvars] at herr
    cases herr
  · rintro ⟨name, v, w, hne, hv, hw⟩
    cases hvars : e.freeVars with
    | error err => exact ⟨err, rfl⟩
    | ok vars =>
      obtain ⟨hn, hmem⟩ := freeVars_spec hvars
      have hv' := lookup_of_mem hn ((hmem (name, v)).mpr hv)
      have hw' := lookup_of_mem hn ((hmem (name, w)).mpr hw)
      exact absurd (Option.some.inj (hv'.symm.trans hw')) hne

/-- A walk with a stack yields the nodes that can be reached, each once, in the order in which a
reading of the unfolded expression first meets them. Holes are listed in that order, and variables
are refused exactly when two that can be reached share a name but no width. -/
theorem walk_firstOccurrences (e : Expr) :
    (Visited.empty.run [e]).toList = e.walk ∧ e.walk = e.preorder.eraseDups ∧ e.walk.Nodup ∧
      (∀ x, x ∈ e.walk ↔ e.Reaches x) ∧
      e.holes = (e.preorder.filterMap asHole?).eraseDups ∧ e.holes.Nodup ∧
      (∀ h, h ∈ e.holes ↔ e.Reaches (hole h)) ∧
      ((∃ err, e.freeVars = .error err) ↔ ∃ x y name v w, e.Reaches x ∧ e.Reaches y ∧
        x.asVariable? = some (name, v) ∧ y.asVariable? = some (name, w) ∧ v ≠ w) := by
  refine ⟨Visited.toList_run e, e.walk_eq_eraseDups, e.nodup_walk,
    fun x => mem_walk.trans mem_preorder_iff_reaches, e.holes_eq_eraseDups, e.nodup_holes,
    fun h => mem_holes.trans mem_preorder_iff_reaches, freeVars_error_iff.trans ?_⟩
  constructor
  · rintro ⟨name, v, w, hne, ⟨t, s, args, hx⟩, ⟨t', s', args', hy⟩⟩
    exact ⟨_, _, name, v, w, mem_preorder_iff_reaches.mp hx, mem_preorder_iff_reaches.mp hy, rfl,
      rfl, hne⟩
  · rintro ⟨x, y, name, v, w, hx, hy, hxv, hyw, hne⟩
    obtain ⟨t, s, args, rfl⟩ := asVariable?_eq_some.mp hxv
    obtain ⟨t', s', args', rfl⟩ := asVariable?_eq_some.mp hyw
    exact ⟨name, v, w, hne, ⟨t, s, args, mem_preorder_iff_reaches.mpr hx⟩,
      ⟨t', s', args', mem_preorder_iff_reaches.mpr hy⟩⟩

end Expr
end CircuitSketch
