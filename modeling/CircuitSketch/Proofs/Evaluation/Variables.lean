import CircuitSketch.Evaluation.Solve
import CircuitSketch.Proofs.Evaluation.Locality

/-!
# Variables and their valuations

The variables of a specification and a sketch are the ones that occur in them, each once and in the
order of their names. Their valuations are numbered, and up to widths every choice of numbers for
the variables is one of them.
-/
namespace CircuitSketch

/-- Variables added to known ones: every name stays with one width. -/
structure Extends (known added vars : List (String × Nat)) : Prop where
  nodup : (vars.map (·.1)).Nodup
  mem : ∀ v, v ∈ vars ↔ v ∈ known ∨ v ∈ added

theorem Extends.refl {known : List (String × Nat)} (h : (known.map (·.1)).Nodup) :
    Extends known [] known where
  nodup := h
  mem := by simp

/-- A new name is added at the end. -/
theorem Extends.append {known : List (String × Nat)} (h : (known.map (·.1)).Nodup)
    {v : String × Nat} (new : known.lookup v.1 = none) : Extends known [v] (known ++ [v]) where
  nodup := by
    rw [lookup_eq_none_iff] at new
    rw [List.map_append, List.nodup_append]
    refine ⟨h, by simp, fun a ha b hb => ?_⟩
    rw [List.map_singleton, List.mem_singleton] at hb
    rintro rfl
    exact new (hb ▸ ha)
  mem := by simp

/-- A name that is known with the same width is not added again. -/
theorem Extends.known {known : List (String × Nat)} (h : (known.map (·.1)).Nodup)
    {v : String × Nat} (old : known.lookup v.1 = some v.2) : Extends known [v] known where
  nodup := h
  mem := by
    intro u
    have hmem : v ∈ known := mem_of_lookup_eq_some old
    constructor
    · exact .inl
    · rintro (hu | hu)
      · exact hu
      · rw [List.mem_singleton] at hu
        exact hu ▸ hmem

theorem Extends.trans {known vars more : List (String × Nat)} {v : String × Nat}
    {added : List (String × Nat)} (h : Extends known [v] vars) (h' : Extends vars added more) :
    Extends known (v :: added) more where
  nodup := h'.nodup
  mem := by
    intro u
    rw [h'.mem, h.mem, List.mem_singleton, List.mem_cons]
    exact or_assoc

namespace Expr

/-- A variable with its width occurs in an expression. -/
def HasVariable (e : Expr) (v : String × Nat) : Prop :=
  ∃ t s args, node t (.var v.1 v.2) s args ∈ e.preorder

theorem asVariable?_eq_some {x : Expr} {v : String × Nat} :
    x.asVariable? = some v ↔ ∃ t s args, x = node t (.var v.1 v.2) s args := by
  constructor
  · intro h
    unfold asVariable? at h
    split at h
    · next t name w s args =>
      cases h
      exact ⟨t, s, args, rfl⟩
    · cases h
  · rintro ⟨t, s, args, rfl⟩
    rfl

theorem extends_foldlM_addVariable {added known vars : List (String × Nat)}
    (hn : (known.map (·.1)).Nodup)
    (h : added.foldlM (fun known v => addVariable known v.1 v.2) known = .ok vars) :
    Extends known added vars := by
  induction added generalizing known with
  | nil =>
    cases h
    exact .refl hn
  | cons v added ih =>
    rw [List.foldlM_cons] at h
    obtain ⟨next, hnext, hrest⟩ := bind_eq_ok h
    have hstep : Extends known [v] next := by
      unfold addVariable at hnext
      split at hnext
      · next hnone =>
        cases hnext
        exact .append hn hnone
      · next first hsome =>
        split at hnext
        · next hwidth =>
          cases hnext
          exact .known hn (hwidth ▸ hsome)
        · cases hnext
    exact hstep.trans (ih hstep.nodup hrest)

/-- The variables of an expression are the ones that occur in it. -/
theorem freeVars_spec {e : Expr} {vars : List (String × Nat)} (h : e.freeVars = .ok vars) :
    (vars.map (·.1)).Nodup ∧ ∀ v, v ∈ vars ↔ e.HasVariable v := by
  have hext := extends_foldlM_addVariable (by simp) h
  refine ⟨hext.nodup, fun v => ?_⟩
  rw [hext.mem, List.mem_filterMap]
  simp only [List.not_mem_nil, false_or, asVariable?_eq_some, mem_walk, HasVariable]
  constructor
  · rintro ⟨x, hx, t, s, args, rfl⟩
    exact ⟨t, s, args, hx⟩
  · rintro ⟨t, s, args, hx⟩
    exact ⟨_, hx, t, s, args, rfl⟩

end Expr

namespace Solve

theorem extends_mergeVariables {added known vars : List (String × Nat)}
    (hn : (known.map (·.1)).Nodup) (h : mergeVariables known added = .ok vars) :
    Extends known added vars := by
  induction added generalizing known with
  | nil =>
    cases h
    exact .refl hn
  | cons v added ih =>
    rw [mergeVariables] at h
    split at h
    · next hnone =>
      have hstep := Extends.append hn hnone
      exact hstep.trans (ih hstep.nodup h)
    · next first hsome =>
      split at h
      · next hwidth => exact (Extends.known hn (hwidth ▸ hsome)).trans (ih hn h)
      · cases h

/-- The variables of a specification and a sketch: each that occurs in one of them, in the order of
their names. -/
structure Variables (specification sketch : Expr) (vars : List (String × Nat)) : Prop where
  sorted : vars.Pairwise fun v w => v.1 < w.1
  mem : ∀ v, v ∈ vars ↔ specification.HasVariable v ∨ sketch.HasVariable v

theorem Variables.nodup {specification sketch : Expr} {vars : List (String × Nat)}
    (h : Variables specification sketch vars) : (vars.map (·.1)).Nodup := by
  refine List.pairwise_map.mpr (h.sorted.imp ?_)
  intro v w hlt heq
  rw [heq] at hlt
  exact String.lt_irrefl _ hlt

theorem mapError_eq_ok {ε ε' α : Type} {f : ε → ε'} {x : Except ε α} {a : α}
    (h : x.mapError f = .ok a) : x = .ok a := by
  cases x with
  | error e => cases h
  | ok b =>
    cases h
    rfl

theorem freeVariables_spec {specification sketch : Expr} {vars : List (String × Nat)}
    (h : freeVariables specification sketch = .ok vars) :
    Variables specification sketch vars := by
  obtain ⟨known, hknown, h⟩ := bind_eq_ok h
  obtain ⟨more, hmore, h⟩ := bind_eq_ok h
  obtain ⟨all, hall, h⟩ := bind_eq_ok h
  cases h
  obtain ⟨hn, hmem⟩ := Expr.freeVars_spec (mapError_eq_ok hknown)
  obtain ⟨-, hmem'⟩ := Expr.freeVars_spec (mapError_eq_ok hmore)
  have hext := extends_mergeVariables hn hall
  have hperm := List.mergeSort_perm all fun v w => decide (v.1 ≤ w.1)
  have hnodup : ((all.mergeSort fun v w => decide (v.1 ≤ w.1)).map (·.1)).Nodup :=
    (hperm.map (·.1)).nodup_iff.mpr hext.nodup
  have hsorted : (all.mergeSort fun v w => decide (v.1 ≤ w.1)).Pairwise
      fun v w => decide (v.1 ≤ w.1) := by
    apply List.pairwise_mergeSort
    · intro a b c hab hbc
      rw [decide_eq_true_eq] at hab hbc ⊢
      exact String.le_trans hab hbc
    · intro a b
      simpa using String.le_total a.1 b.1
  refine ⟨?_, fun v => ?_⟩
  · refine (hsorted.and (List.pairwise_map.mp hnodup)).imp ?_
    intro v w hvw
    by_contra hlt
    exact hvw.2 (String.le_antisymm (of_decide_eq_true hvw.1) hlt)
  · rw [hperm.mem_iff, hext.mem, hmem, hmem']

end Solve

/-- Every listed variable has a number. -/
def Valuation.Covers (env : Valuation) (vars : List (String × Nat)) : Prop :=
  ∀ v ∈ vars, ∃ n, env.lookup v.1 = some n

theorem valuationCount_pos (vars : List (String × Nat)) : 0 < valuationCount vars := by
  induction vars with
  | nil => exact Nat.one_pos
  | cons v vars ih => exact Nat.mul_pos (twoPow_pos v.2) ih

/-- Up to widths every choice of numbers for the variables is one of the numbered valuations. -/
theorem exists_valuation {vars : List (String × Nat)} (nodup : (vars.map (·.1)).Nodup)
    (number : String → Int) : ∃ p < valuationCount vars, ∀ v ∈ vars,
      (valuation vars p).lookup v.1 = some (number v.1 % twoPow v.2) := by
  induction vars with
  | nil => exact ⟨0, Nat.one_pos, by simp⟩
  | cons v vars ih =>
    obtain ⟨name, w⟩ := v
    rw [List.map_cons, List.nodup_cons] at nodup
    obtain ⟨p, hp, hrest⟩ := ih nodup.2
    have hpos := twoPow_pos w
    have hnonneg := Int.emod_nonneg (number name) (b := twoPow w) (by omega)
    have hlt := Int.emod_lt_of_pos (number name) (b := twoPow w) (by omega)
    obtain ⟨d, hd⟩ : ∃ d : Nat, (d : Int) = number name % twoPow w :=
      ⟨_, Int.toNat_of_nonneg hnonneg⟩
    have hdlt : d < twoPow w := by omega
    have hdiv : (d * valuationCount vars + p) / valuationCount vars = d := by
      rw [Nat.mul_comm, Nat.mul_add_div (valuationCount_pos vars), Nat.div_eq_of_lt hp]
      rfl
    have hmod : (d * valuationCount vars + p) % valuationCount vars = p := by
      rw [Nat.mul_comm, Nat.mul_add_mod, Nat.mod_eq_of_lt hp]
    refine ⟨d * valuationCount vars + p, ?_, fun u hu => ?_⟩
    · calc d * valuationCount vars + p < d * valuationCount vars + valuationCount vars := by omega
        _ = (d + 1) * valuationCount vars := (Nat.succ_mul _ _).symm
        _ ≤ twoPow w * valuationCount vars := Nat.mul_le_mul_right _ hdlt
    · rw [valuation]
      simp only [hdiv, hmod, Nat.mod_eq_of_lt hdlt, hd]
      rcases List.mem_cons.mp hu with rfl | hmem
      · simp
      · have hne : u.1 ≠ name := by
          rintro rfl
          exact nodup.1 (List.mem_map.mpr ⟨u, hmem, rfl⟩)
        rw [List.lookup_cons, beq_false_of_ne hne]
        exact hrest u hmem

theorem covers_valuation (vars : List (String × Nat)) (p : Nat) :
    (valuation vars p).Covers vars := by
  induction vars generalizing p with
  | nil => exact fun v hv => (List.not_mem_nil hv).elim
  | cons v vars ih =>
    intro u hu
    rw [valuation, List.lookup_cons]
    by_cases h : u.1 == v.1
    · exact ⟨_, by rw [h]⟩
    · rw [Bool.not_eq_true] at h
      rcases List.mem_cons.mp hu with rfl | hu
      · simp at h
      · rw [h]
        exact ih _ u hu

/-- Interpretation depends on the numbers of variables only modulo their widths. -/
theorem Expr.interpret_congr {e : Expr} {env env' : Valuation}
    (h : ∀ v, e.HasVariable v → SameNumber v.2 (env.lookup v.1) (env'.lookup v.1))
    (σ : Assignment) (modules : ModuleTable) :
    e.interpret env σ modules = e.interpret env' σ modules := by
  have hagree : (Context.concrete env σ modules).AgreeOn (.concrete env' σ modules) e :=
    ⟨rfl, fun t name w s args hv => h (name, w) ⟨t, s, args, hv⟩, fun _ _ => rfl⟩
  rw [interpret, interpret, evaluate_eq_eval, evaluate_eq_eval, eval_congr hagree]

/-- Every valuation of the variables is, up to widths, a numbered one. -/
theorem exists_position {vars : List (String × Nat)} (nodup : (vars.map (·.1)).Nodup)
    {env : Valuation} (henv : env.Covers vars) : ∃ p < valuationCount vars,
      ∀ v ∈ vars, SameNumber v.2 (env.lookup v.1) ((valuation vars p).lookup v.1) := by
  obtain ⟨p, hp, hlookup⟩ := exists_valuation nodup fun name => (env.lookup name).getD 0
  refine ⟨p, hp, fun v hv => ?_⟩
  obtain ⟨n, hn⟩ := henv v hv
  rw [hlookup v hv, hn]
  simp [SameNumber]

end CircuitSketch
