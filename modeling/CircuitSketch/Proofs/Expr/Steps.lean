import CircuitSketch.Expr.Pass
import CircuitSketch.Proofs.Expr.Occurrence
import Mathlib.Algebra.BigOperators.Group.List.Basic
import Mathlib.Algebra.Order.BigOperators.Group.List
import Mathlib.Algebra.Order.Group.Nat

/-!
# The steps of a pass

A pass works out the result of a node once at most, and it ends after a number of steps that is
linear in the number of nodes and of references between them.

To count the steps, let every node without a result be charged for the step that finds it and two
steps for each of its references, one that puts the child on the stack and one that drops it. The
nodes on top of the stack are gone from it after no more steps than the charges that are settled
meanwhile, and one for each of these nodes. That is shown by induction on the node: the children
that it puts on the stack have results when it is on top again, so it does so at most once for each
reference. No child leads back to the node, whose own charge is therefore left for its own steps.
-/
namespace CircuitSketch

namespace Expr

/-- The number of references from nodes of an expression to their children. -/
def references (e : Expr) : Nat := (e.walk.map fun x => x.children.length).sum

/-- What occurs in an expression is not larger than it. -/
theorem sizeOf_le_of_mem_preorder {x e : Expr} (h : x ∈ e.preorder) : sizeOf x ≤ sizeOf e := by
  induction e using Expr.induction with
  | hole k => rw [mem_preorder_hole.mp h]
  | node t op s args ih =>
    rcases mem_preorder_node.mp h with rfl | ⟨a, ha, hx⟩
    · exact le_rfl
    · exact (ih a ha hx).trans (sizeOf_lt_of_mem_children ha).le
  | choose t w a b s iha ihb =>
    rcases mem_preorder_choose.mp h with rfl | hx | hx | rfl
    · exact le_rfl
    · exact (iha hx).trans (sizeOf_lt_of_mem_children (by simp)).le
    · exact (ihb hx).trans (sizeOf_lt_of_mem_children (by simp)).le
    · exact (sizeOf_lt_of_mem_children (by simp)).le

end Expr

namespace Pass

variable {ε ρ : Type}

/-- A number of steps lead from one state to another. -/
inductive Steps (p : Pass ε ρ) (s : State ρ) : Nat → State ρ → Prop
  | zero : Steps p s 0 s
  | succ {n : Nat} {s' s'' : State ρ} (steps : Steps p s n s') (step : p.step s' = .next s'') :
      Steps p s (n + 1) s''

variable {p : Pass ε ρ} {m n : Nat} {s s' s'' : State ρ} {e x : Expr} {t : Results ρ}
  {rest : List Expr}

theorem Move.steps (h : Move p s s') : Steps p s 1 s' := .succ .zero (step_eq_next.mpr h)

theorem Steps.trans (h : Steps p s m s') (h' : Steps p s' n s'') : Steps p s (m + n) s'' := by
  induction h' with
  | zero => exact h
  | succ _ step ih => exact .succ ih step

/-- Of two runs from one state the longer one goes on where the shorter one ends. -/
theorem Steps.split (h : Steps p s (m + n) s'') : ∃ s', Steps p s m s' ∧ Steps p s' n s'' := by
  induction n generalizing s'' with
  | zero => exact ⟨s'', h, .zero⟩
  | succ n ih =>
    cases h with
    | succ steps step =>
      obtain ⟨s', hm, hn⟩ := ih steps
      exact ⟨s', hm, .succ hn step⟩

theorem Steps.unique (h : Steps p s n s') (h' : Steps p s n s'') : s' = s'' := by
  induction h generalizing s'' with
  | zero =>
    cases h'
    rfl
  | succ _ step ih =>
    cases h' with
    | succ steps' step' =>
      rw [ih steps', step'] at step
      cases step
      rfl

theorem Move.mem_results (h : Move p s s') (hx : x ∈ s.results) : x ∈ s'.results := by
  cases h with
  | drop => exact hx
  | push => exact hx
  | finish => exact Std.HashMap.mem_insert.mpr (.inr hx)

/-- Results are never lost. -/
theorem Steps.mem_results (h : Steps p s n s') (hx : x ∈ s.results) : x ∈ s'.results := by
  induction h with
  | zero => exact hx
  | succ _ step ih => exact (step_eq_next.mp step).mem_results ih

/-- A node whose result is to be worked out has it after the step. -/
theorem Due.mem_results (h : p.Due s x) (hmove : Move p s s') : x ∈ s'.results := by
  obtain ⟨top, new, es, needs, ready⟩ := h
  cases hmove with
  | drop old =>
    cases top
    exact absurd old new
  | push _ needs' pending =>
    cases top
    cases needs.symm.trans needs'
    exact absurd (Results.missing_eq_nil.mpr ready) pending
  | finish due' result =>
    cases top
    exact Std.HashMap.mem_insert_self

/-- The result of a node is not worked out a second time. -/
theorem Due.not_later (h : p.Due s x) (hsteps : Steps p s (n + 1) s') : ¬ p.Due s' x := by
  intro h'
  rw [Nat.add_comm] at hsteps
  obtain ⟨s₁, hone, hrest⟩ := hsteps.split
  cases hone with
  | succ hzero step =>
    cases hzero
    exact h'.new (hrest.mem_results (h.mem_results (step_eq_next.mp step)))

/-- A result is worked out at one step only. -/
theorem Steps.eq_of_due {s₀ : State ρ} (hm : Steps p s₀ m s) (hn : Steps p s₀ n s')
    (hs : p.Due s x) (hs' : p.Due s' x) : m = n := by
  rcases Nat.lt_trichotomy m n with hlt | heq | hlt
  · obtain ⟨k, rfl⟩ := Nat.exists_eq_add_of_lt hlt
    obtain ⟨s₁, hfirst, hlater⟩ := Steps.split (m := m) (n := k + 1) hn
    cases hfirst.unique hm
    exact absurd hs' (hs.not_later hlater)
  · exact heq
  · obtain ⟨k, rfl⟩ := Nat.exists_eq_add_of_lt hlt
    obtain ⟨s₁, hfirst, hlater⟩ := Steps.split (m := n) (n := k + 1) hm
    cases hfirst.unique hn
    exact absurd hs (hs'.not_later hlater)

/-- The charge of a node. -/
def charge (e : Expr) : Nat := 2 * e.children.length + 1

/-- The charges of the nodes that have no result. -/
def toll (us : List Expr) (t : Results ρ) : Nat := ((t.missing us).map charge).sum

/-- With `ds` on top of the stack a pass gets to what is below them, with results for all of them
and for smaller nodes than `size`, or it stops short; the steps are paid by `budget` and the charges
that are settled. -/
inductive Clears (p : Pass ε ρ) (us : List Expr) (size budget : Nat) (ds rest : List Expr)
    (t : Results ρ) : Prop
  | cleared {n : Nat} {t' : Results ρ} (steps : Steps p ⟨ds ++ rest, t⟩ n ⟨rest, t'⟩)
      (found : ∀ d ∈ ds, d ∈ t') (small : ∀ x ∈ t', x ∈ t ∨ sizeOf x < size)
      (cost : n + toll us t' ≤ toll us t + budget)
  | stopped {n : Nat} {s : State ρ} {stop : Stop ε} (steps : Steps p ⟨ds ++ rest, t⟩ n s)
      (halt : p.step s = .stopped stop) (cost : n ≤ toll us t + budget)

variable {us : List Expr} {size budget : Nat}

/-- Nodes are gone from the stack one after the other. -/
theorem clears_list {ds : List Expr} (h : ∀ d ∈ ds, ∀ rest t, Clears p us size 1 [d] rest t)
    (rest : List Expr) (t : Results ρ) : Clears p us size ds.length ds rest t := by
  induction ds generalizing t with
  | nil => exact .cleared .zero (by simp) (fun x hx => .inl hx) (by simp)
  | cons d ds ih =>
    cases h d List.mem_cons_self (ds ++ rest) t with
    | stopped steps halt cost =>
      refine .stopped steps halt ?_
      rw [List.length_cons]
      omega
    | @cleared m t₁ hd found small cost =>
      cases ih (fun x hx => h x (List.mem_cons_of_mem d hx)) t₁ with
      | stopped steps halt cost' =>
        refine .stopped (hd.trans steps) halt ?_
        rw [List.length_cons]
        omega
      | @cleared n t₂ steps found' small' cost' =>
        refine .cleared (hd.trans steps) ?_ (fun x hx => ?_) ?_
        · rintro x (_ | ⟨_, hx⟩)
          · exact steps.mem_results (found d List.mem_cons_self)
          · exact found' x hx
        · rcases small' x hx with hx | hx
          · exact small x hx
          · exact .inr hx
        · rw [List.length_cons]
          omega

/-- When the needed children have results, so many fewer children have none. -/
theorem length_missing_children {t t' : Results ρ} {es : List Expr} (hes : es.Sublist e.children)
    (kept : ∀ x ∈ t, x ∈ t') (found : ∀ d ∈ t.missing es, d ∈ t') :
    (Results.missing t' e.children).length + (t.missing es).length ≤
      (t.missing e.children).length := by
  have hstill : Results.missing t' e.children =
      (t.missing e.children).filter fun d => !Std.HashMap.contains t' d := by
    simp only [Results.missing, List.filter_filter]
    apply List.filter_congr
    intro d _
    by_cases hd : d ∈ t
    · simp [kept d hd]
    · simp [hd]
  have hsub : (t.missing es).Sublist
      ((t.missing e.children).filter fun d => Std.HashMap.contains t' d) := by
    have hfound : (t.missing es).filter (fun d => Std.HashMap.contains t' d) = t.missing es :=
      List.filter_eq_self.mpr found
    rw [← hfound]
    exact (hes.filter _).filter _
  have hlength := hsub.length_le
  have hsplit := (t.missing e.children).length_eq_length_filter_add fun d =>
    Std.HashMap.contains t' d
  rw [hstill]
  omega

theorem missing_filter_ne {e : Expr} (us : List Expr) (t : Results ρ) :
    t.missing (us.filter (· ≠ e)) = (t.missing us).filter (· ≠ e) := by
  simp only [Results.missing, List.filter_filter, Bool.and_comm]

theorem toll_insert (hus : e ∉ us) (t : Results ρ) (x : ρ) :
    toll us (Std.HashMap.insert t e x) = toll us t := by
  have hsame : Results.missing (Std.HashMap.insert t e x) us = t.missing us := by
    apply List.filter_congr
    intro d hd
    have hne : (e == d) = false := beq_false_of_ne fun h => hus (h ▸ hd)
    simp [Std.HashMap.contains_insert, hne]
  rw [toll, hsame, toll]

theorem toll_filter_of_mem (he : e ∈ t) : toll (us.filter (· ≠ e)) t = toll us t := by
  have hsame : (t.missing us).filter (· ≠ e) = t.missing us := by
    apply List.filter_eq_self.mpr
    intro d hd
    have hne : d ≠ e := fun h => (Results.mem_missing.mp hd).2 (h ▸ he)
    simpa using hne
  rw [toll, missing_filter_ne, hsame, toll]

theorem sum_filter_ne_add_le {es : List Expr} (h : e ∈ es) (f : Expr → Nat) :
    ((es.filter (· ≠ e)).map f).sum + f e ≤ (es.map f).sum := by
  calc ((es.filter (· ≠ e)).map f).sum + f e
      = (((e :: es.erase e).filter (· ≠ e)).map f).sum + f e := by
        rw [(((List.perm_cons_erase h).filter _).map f).sum_eq]
    _ = (((es.erase e).filter (· ≠ e)).map f).sum + f e := by simp
    _ ≤ ((es.erase e).map f).sum + f e :=
        Nat.add_le_add_right ((List.filter_sublist.map f).sum_le_sum fun _ _ => Nat.zero_le _) _
    _ = (es.map f).sum := by rw [Nat.add_comm, List.sum_map_erase f h]

theorem toll_filter_add_charge_le (hus : e ∈ us) (new : e ∉ t) :
    toll (us.filter (· ≠ e)) t + charge e ≤ toll us t := by
  rw [toll, missing_filter_ne]
  exact sum_filter_ne_add_le (Results.mem_missing.mpr ⟨hus, new⟩) charge

/-- The steps of a node without a result, by induction on the number of its children that have
none. -/
theorem clears_new (hus : e ∉ us)
    (ih : ∀ d ∈ e.children, ∀ rest t, Clears p us (sizeOf e) 1 [d] rest t) (hsize : sizeOf e < size)
    (rest : List Expr) {t : Results ρ} (new : e ∉ t) :
    Clears p us size (2 * (t.missing e.children).length + 1) [e] rest t := by
  induction hm : (t.missing e.children).length using Nat.strong_induction_on generalizing t with
  | _ m ihm =>
    cases hstep : p.step ⟨e :: rest, t⟩ with
    | done => exact absurd (step_eq_done.mp hstep) (List.cons_ne_nil e rest)
    | stopped stop => exact .stopped .zero hstep (Nat.zero_le _)
    | next s' =>
      have hone : Steps p ⟨e :: rest, t⟩ 1 s' := .succ .zero hstep
      cases step_eq_next.mp hstep with
      | drop old => exact absurd old new
      | @finish _ _ _ x due result =>
        refine .cleared hone (by simp) (fun d hd => ?_) (by rw [toll_insert hus]; omega)
        rcases Std.HashMap.mem_insert.mp hd with hd | hd
        · exact .inr (eq_of_beq hd ▸ hsize)
        · exact .inl hd
      | @push _ _ _ es _ needs pending =>
        have hes := p.needs_sublist needs
        have hds (d : Expr) (hd : d ∈ p.order (t.missing es)) : d ∈ e.children :=
          hes.subset (Results.mem_missing.mp (mem_order.mp hd)).1
        have hfew : (t.missing es).length ≤ m := hm ▸ (hes.filter _).length_le
        have hpos : 0 < (t.missing es).length := List.length_pos_iff.mpr pending
        have hlist := clears_list (fun d hd => ih d (hds d hd)) (e :: rest) t
        rw [length_order] at hlist
        cases hlist with
        | stopped steps halt cost => exact .stopped (hone.trans steps) halt (by omega)
        | @cleared n t₁ steps found small cost =>
          have new₁ : e ∉ t₁ := fun h => (small e h).elim new (Nat.lt_irrefl _)
          have kept (x : Expr) (hx : x ∈ t) : x ∈ t₁ := steps.mem_results hx
          have hleft := length_missing_children hes kept fun d hd => found d (mem_order.mpr hd)
          cases ihm _ (by omega) new₁ rfl with
          | stopped steps' halt cost' =>
            exact .stopped ((hone.trans steps).trans steps') halt (by omega)
          | cleared steps' found' small' cost' =>
            refine .cleared ((hone.trans steps).trans steps') found' (fun x hx => ?_)
              (by omega)
            rcases small' x hx with hx | hx
            · exact (small x hx).imp_right fun hlt => hlt.trans hsize
            · exact .inr hx

/-- A node is gone from the top of the stack after the steps that its charge and the charges of
what is below it pay for. -/
theorem clears (e : Expr) (hus : ∀ x ∈ e.preorder, x ∈ us) (hsize : sizeOf e < size)
    (rest : List Expr) (t : Results ρ) : Clears p us size 1 [e] rest t := by
  induction hn : sizeOf e using Nat.strong_induction_on generalizing e us size rest t with
  | _ n ih =>
    subst hn
    by_cases he : e ∈ t
    · exact .cleared (Move.drop he).steps (by simpa using he) (fun x hx => .inl hx) (by omega)
    · have hchildren (d : Expr) (hd : d ∈ e.children) (rest : List Expr) (t : Results ρ) :
          Clears p (us.filter (· ≠ e)) (sizeOf e) 1 [d] rest t := by
        have hlt := Expr.sizeOf_lt_of_mem_children hd
        refine ih _ hlt d (fun x hx => ?_) hlt rest t rfl
        have hne : x ≠ e := fun h => Nat.not_le_of_lt hlt (h ▸ Expr.sizeOf_le_of_mem_preorder hx)
        have hchild := Expr.mem_preorder_of_mem_children hd e.mem_preorder_self
        exact List.mem_filter.mpr ⟨hus x (Expr.mem_preorder_trans hx hchild), by simpa using hne⟩
      have hcharge := toll_filter_add_charge_le (hus e e.mem_preorder_self) he
      have hmissing : (t.missing e.children).length ≤ e.children.length := List.length_filter_le _ _
      rw [charge] at hcharge
      cases clears_new (by simp) hchildren hsize rest he with
      | stopped steps halt cost => exact .stopped steps halt (by omega)
      | cleared steps found small cost =>
        refine .cleared steps found small ?_
        rw [toll_filter_of_mem (found e List.mem_cons_self)] at cost
        omega

theorem sum_map_charge (es : List Expr) :
    (es.map charge).sum = 2 * (es.map fun x => x.children.length).sum + es.length := by
  induction es with
  | nil => rfl
  | cons e es ih =>
    simp only [List.map_cons, List.sum_cons, List.length_cons, ih, charge]
    omega

theorem toll_walk_le (e : Expr) (t : Results ρ) :
    toll e.walk t ≤ 2 * e.references + e.walk.length := by
  rw [Expr.references, ← sum_map_charge]
  exact (List.filter_sublist.map charge).sum_le_sum fun _ _ => Nat.zero_le _

theorem run_of_next (ready : p.Ready) {root : Expr} (hs : Underway root s)
    (h : p.step s = .next s') :
    p.run ready root s hs = p.run ready root s' (hs.move (step_eq_next.mp h)) := by
  rw [run.eq_def]
  split
  next hstep => cases h.symm.trans hstep
  next hstep => cases h.symm.trans hstep
  next hstep => cases h.symm.trans hstep
  next s₁ hstep =>
    cases h.symm.trans hstep
    rfl

theorem run_of_stopped (ready : p.Ready) {root : Expr} (hs : Underway root s) {err : ε}
    (h : p.step s = .stopped (.failed err)) : p.run ready root s hs = .error err := by
  rw [run.eq_def]
  split
  next hstep => cases h.symm.trans hstep
  next cause hstep =>
    cases h.symm.trans hstep
    rfl
  next hstep => cases h.symm.trans hstep
  next hstep => cases h.symm.trans hstep

theorem run_of_done (ready : p.Ready) {root : Expr} (hs : Underway root s)
    (h : p.step s = .done) : ∃ v, s.results[root]? = some v ∧ p.run ready root s hs = .ok v := by
  rw [run.eq_def]
  split
  next hstep => exact ⟨_, Std.HashMap.getElem?_eq_some_getElem _, rfl⟩
  next hstep => cases h.symm.trans hstep
  next hstep => cases h.symm.trans hstep
  next hstep => cases h.symm.trans hstep

/-- Steps do not change what a pass finds in the end. -/
theorem Steps.run_eq (h : Steps p s n s') (ready : p.Ready) {root : Expr} (hs : Underway root s) :
    ∃ hs' : Underway root s', p.run ready root s hs = p.run ready root s' hs' := by
  induction h with
  | zero => exact ⟨hs, rfl⟩
  | succ _ step ih =>
    obtain ⟨hs', heq⟩ := ih
    exact ⟨_, heq.trans (run_of_next ready hs' step)⟩

/-- What a pass over `e` does from given results on:

* it ends after a number of steps that is linear in the size of `e`, either with a result for `e` or
  for a cause of its own, and that is what it finds;
* no step on the way reads the result of a node that has none;
* it works out the result of a node at one step only;
* if `e` has a result already, it is over after one step and finds that result. -/
structure Completes (p : Pass ε ρ) (ready : p.Ready) (t : Results ρ) (e : Expr) : Prop where
  ends : ∃ n s, n ≤ 2 * e.references + e.walk.length + 1 ∧ Steps p ⟨[e], t⟩ n s ∧
    ((p.step s = .done ∧ ∃ v, s.results[e]? = some v ∧ p.resume ready t e = .ok v) ∨
      ∃ err, p.step s = .stopped (.failed err) ∧ p.resume ready t e = .error err)
  reads : ∀ {n s}, Steps p ⟨[e], t⟩ n s → ∀ d, p.step s ≠ .stopped (.unready d)
  once : ∀ {m n s s' x}, Steps p ⟨[e], t⟩ m s → Steps p ⟨[e], t⟩ n s' → p.Due s x → p.Due s' x →
    m = n
  known : ∀ {v}, t[e]? = some v → Steps p ⟨[e], t⟩ 1 ⟨[], t⟩ ∧ p.resume ready t e = .ok v

theorem completes (ready : p.Ready) (t : Results ρ) (e : Expr) : p.Completes ready t e where
  ends := by
    have hcost := toll_walk_le e t
    have hclears := clears (p := p) e (fun x hx => Expr.mem_walk.mpr hx) (Nat.lt_succ_self _) [] t
    cases hclears with
    | @cleared n t' steps found small cost =>
      refine ⟨n, _, by omega, steps, .inl ⟨step_eq_done.mpr rfl, ?_⟩⟩
      obtain ⟨hs, heq⟩ := steps.run_eq ready (underway_start e t)
      obtain ⟨v, hv, hrun⟩ := run_of_done ready hs (step_eq_done.mpr rfl)
      exact ⟨v, hv, heq.trans hrun⟩
    | @stopped n s stop steps halt cost =>
      refine ⟨n, s, by omega, steps, .inr ?_⟩
      cases stop with
      | unready d => exact absurd halt (step_ne_unready ready s d)
      | failed err =>
        obtain ⟨hs, heq⟩ := steps.run_eq ready (underway_start e t)
        exact ⟨err, halt, heq.trans (run_of_stopped ready hs halt)⟩
  reads _ d := step_ne_unready ready _ d
  once hm hn hs hs' := hm.eq_of_due hn hs hs'
  known hv := by
    have old : e ∈ t := by simp [Std.HashMap.mem_iff_isSome_getElem?, hv]
    have hone : Steps p ⟨[e], t⟩ 1 ⟨[], t⟩ := (Move.drop old).steps
    obtain ⟨hs, heq⟩ := hone.run_eq ready (underway_start e t)
    obtain ⟨v', hv', hrun⟩ := run_of_done ready hs (step_eq_done.mpr rfl)
    cases hv.symm.trans hv'
    exact ⟨hone, heq.trans hrun⟩

end Pass
end CircuitSketch
