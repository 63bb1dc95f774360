import CircuitSketch.Proofs.Evaluation.Search

/-!
# The solver decides its problem

When the solver answers, its answer is right: a sketch is satisfied exactly when some values of its
holes make it agree with the specification under every valuation of the variables. The values that
it returns are the first ones that do, and the number of valuations it has looked at is the least
one that settles the matter.
-/
namespace CircuitSketch

open CircuitSketch.Expr

/-- Of two assignments the first does not come after the second when the bits of the holes are
compared in order: where they first differ it has the zero. -/
def Assignment.NotAfter (holes : List Hole) (σ ρ : Assignment) : Prop :=
  ∀ i, (∀ j < i, σ.decisions holes j = ρ.decisions holes j) → σ.decisions holes i →
    ρ.decisions holes i

/-- The values found for the holes. -/
def Outcome.assignment (o : Outcome) : Assignment :=
  Assignment.ofList (o.values.map fun v => (v.1, .number v.2))

namespace Solve

/-- An assignment of the holes makes the sketch agree with the specification under every valuation
of the variables. -/
structure IsSolution (specification sketch : Expr) (modules : ModuleTable)
    (vars : List (String × Nat)) (σ : Assignment) : Prop where
  covers : σ.Covers sketch.holes
  agrees : ∀ env : Valuation, env.Covers vars → Agrees specification sketch modules σ env

/-- What is right to answer to a problem with the given variables. -/
structure IsAnswer (specification sketch : Expr) (limit : Int) (modules : ModuleTable)
    (vars : List (String × Nat)) (o : Outcome) : Prop where
  unknown : o.verdict = .unknown ↔ limit < valuationCount vars
  satisfied : o.verdict = .satisfied ↔ valuationCount vars ≤ limit ∧
    ∃ σ, IsSolution specification sketch modules vars σ
  unsatisfied : o.verdict = .unsatisfied ↔ valuationCount vars ≤ limit ∧
    ¬ ∃ σ, IsSolution specification sketch modules vars σ
  keys : o.verdict = .satisfied → o.values.map (·.1) = sketch.holes
  solution : o.verdict = .satisfied →
    IsSolution specification sketch modules vars o.assignment
  least : o.verdict = .satisfied → ∀ σ, IsSolution specification sketch modules vars σ →
    o.assignment.NotAfter sketch.holes σ
  none_checked : o.verdict = .unknown → o.checked = 0
  all_checked : o.verdict = .satisfied → o.checked = valuationCount vars
  least_checked : o.verdict = .unsatisfied → o.checked ≤ valuationCount vars ∧
    ¬ SolvableUpTo specification sketch modules vars o.checked ∧
      ∀ k < o.checked, SolvableUpTo specification sketch modules vars k

variable {specification sketch : Expr} {limit : Int} {modules : ModuleTable}
  {vars : List (String × Nat)}

/-- The ways in which a problem with the given variables is answered. -/
inductive Answered (specification sketch : Expr) (limit : Int) (modules : ModuleTable)
    (vars : List (String × Nat)) : Outcome → Prop
  | unknown (gt : limit < valuationCount vars) :
      Answered specification sketch limit modules vars ⟨.unknown, [], 0⟩
  | satisfied {checked : Nat} {demand : Condition} {ones : List Nat}
      (le : valuationCount vars ≤ limit)
      (ran : search specification sketch (Std.HashMap.ofList (numberBits 0 sketch.holes)) modules
        vars (valuationCount vars) 0 (.const true) = .ok (checked, demand))
      (least : demand.leastSolution = some ones) :
      Answered specification sketch limit modules vars
        ⟨.satisfied, settle (numberBits 0 sketch.holes) ones, checked⟩
  | unsatisfied {checked : Nat} {demand : Condition} (le : valuationCount vars ≤ limit)
      (ran : search specification sketch (Std.HashMap.ofList (numberBits 0 sketch.holes)) modules
        vars (valuationCount vars) 0 (.const true) = .ok (checked, demand))
      (none : demand.leastSolution = none) :
      Answered specification sketch limit modules vars ⟨.unsatisfied, [], checked⟩

/-- A problem that is answered is about words of one width and has its variables. -/
theorem answered_of_solve {o : Outcome} (h : solve specification sketch limit modules = .ok o) :
    specification.isWord ∧ sketch.isWord ∧ specification.width = sketch.width ∧
      ∃ vars, Variables specification sketch vars ∧
        Answered specification sketch limit modules vars o := by
  unfold solve at h
  simp only [bind, Except.bind, pure, Except.pure, throw, throwThe, MonadExceptOf.throw] at h
  split at h
  · cases h
  · next hwords =>
    split at h
    · cases h
    · next hwidths =>
      split at h
      · cases h
      · split at h
        · cases h
        · next vars hvars =>
          simp only [Bool.or_eq_true, Bool.not_eq_true', not_or, Bool.not_eq_false] at hwords
          refine ⟨hwords.1, hwords.2, not_not.mp hwidths, vars, freeVariables_spec hvars, ?_⟩
          split at h
          · next hgt =>
            cases h
            exact .unknown hgt
          · next hle =>
            have hle : (valuationCount vars : Int) ≤ limit := by omega
            split at h
            · cases h
            · next result hran =>
              have hran := mapError_eq_ok hran
              split at h
              · next ones hones =>
                cases h
                exact .satisfied hle hran hones
              · next hnone =>
                cases h
                exact .unsatisfied hle hran hnone

/-- An assignment is a solution when the sketch agrees under all numbered valuations. -/
theorem isSolution_iff (hv : Variables specification sketch vars) {σ : Assignment} :
    IsSolution specification sketch modules vars σ ↔ σ.Covers sketch.holes ∧
      ∀ p < valuationCount vars, Agrees specification sketch modules σ (valuation vars p) := by
  constructor
  · intro h
    exact ⟨h.covers, fun p _ => h.agrees _ (covers_valuation vars p)⟩
  · rintro ⟨hcovers, hall⟩
    refine ⟨hcovers, fun env henv => ?_⟩
    obtain ⟨p, hp, hsame⟩ := exists_position hv.nodup henv
    obtain ⟨n, hspec, hsketch⟩ := hall p hp
    refine ⟨n, ?_, ?_⟩
    · rw [Expr.interpret_congr fun v hvar => hsame v ((hv.mem v).mpr (.inl hvar)), hspec]
    · rw [Expr.interpret_congr fun v hvar => hsame v ((hv.mem v).mpr (.inr hvar)), hsketch]

theorem collected_nothing :
    Collected specification sketch modules vars 0 (.const true) := by
  exact fun σ τ _ => iff_of_true (Condition.laws.holds_const τ true) (by simp)

/-- The values that a solution of the demand gives to the holes. -/
theorem assignment_settle (holes : List Hole) (ones : List Nat) (checked : Nat) :
    (Outcome.assignment ⟨.satisfied, settle (numberBits 0 holes) ones, checked⟩) =
      assignmentOf holes ones.contains := by
  rw [Outcome.assignment, assignmentOf, settle, List.map_map]
  rfl

/-- The assignment that the least decisions give comes first. -/
theorem notAfter_assignmentOf {holes : List Hole} (nodup : holes.Nodup) {τ : Nat → Bool}
    {ρ : Assignment}
    (least : ∀ i, (∀ j < i, ρ.decisions holes j = τ j) → τ i → ρ.decisions holes i) :
    (assignmentOf holes τ).NotAfter holes ρ := by
  have hd := decides_assignmentOf nodup τ
  intro i hsame hi
  rw [hd.decisions_eq, Bool.and_eq_true, decide_eq_true_eq] at hi
  refine least i (fun j hj => ?_) hi.2
  have hlt : j < (holes.map Hole.width).sum := by omega
  rw [← hsame j hj, hd.decisions_eq, decide_eq_true hlt, Bool.true_and]

theorem isAnswer_of_unknown (gt : limit < valuationCount vars) :
    IsAnswer specification sketch limit modules vars ⟨.unknown, [], 0⟩ := by
  have hnot : ¬ (valuationCount vars : Int) ≤ limit := by omega
  constructor <;> simp [gt, hnot]

theorem isAnswer_of_satisfied (hv : Variables specification sketch vars) {checked : Nat}
    {demand : Condition} {ones : List Nat} (le : valuationCount vars ≤ limit)
    (hs : Searched specification sketch modules vars 0 (valuationCount vars) checked demand)
    (hones : demand.leastSolution = some ones) :
    IsAnswer specification sketch limit modules vars
      ⟨.satisfied, settle (numberBits 0 sketch.holes) ones, checked⟩ := by
  have hn := sketch.nodup_holes
  have hholds : demand.holds ones.contains := Condition.laws.solves hones
  have hchecked : checked = valuationCount vars := by
    by_contra hne
    have hearly := hs.early (by have := hs.le; omega) ones.contains
    rw [hholds] at hearly
    cases hearly
  subst hchecked
  have hsolution : IsSolution specification sketch modules vars
      (assignmentOf sketch.holes ones.contains) :=
    (isSolution_iff hv).mpr ⟨covers_assignmentOf hn _,
      (hs.collected _ _ (decides_assignmentOf hn ones.contains)).mp hholds⟩
  have hnot : ¬ limit < valuationCount vars := by omega
  refine ⟨by simp [hnot], ?_, ?_, ?_, ?_, ?_, by simp, by simp, by simp⟩
  · exact iff_of_true rfl ⟨le, _, hsolution⟩
  · exact iff_of_false (by simp) fun h => h.2 ⟨_, hsolution⟩
  · intro _
    rw [settle, List.map_map]
    exact keys_numberBits 0 sketch.holes
  · intro _
    rw [assignment_settle]
    exact hsolution
  · intro _ ρ hρ
    rw [assignment_settle]
    obtain ⟨hcovers, hall⟩ := (isSolution_iff hv).mp hρ
    exact notAfter_assignmentOf hn
      (Condition.laws.least hones _ ((hs.collected ρ _ (decides_decisions hcovers)).mpr hall))

theorem isAnswer_of_unsatisfied (hv : Variables specification sketch vars) {checked : Nat}
    {demand : Condition} (le : valuationCount vars ≤ limit)
    (hs : Searched specification sketch modules vars 0 (valuationCount vars) checked demand)
    (hnone : demand.leastSolution = none) :
    IsAnswer specification sketch limit modules vars ⟨.unsatisfied, [], checked⟩ := by
  have hn := sketch.nodup_holes
  have hnever : ¬ SolvableUpTo specification sketch modules vars checked := by
    rintro ⟨σ, hcovers, hall⟩
    have hholds := (hs.collected σ _ (decides_decisions hcovers)).mpr hall
    rw [Condition.laws.unsolvable hnone] at hholds
    cases hholds
  have hno : ¬ ∃ σ, IsSolution specification sketch modules vars σ := by
    rintro ⟨σ, hσ⟩
    obtain ⟨hcovers, hall⟩ := (isSolution_iff hv).mp hσ
    exact hnever ⟨σ, hcovers, fun p hlt => hall p (hlt.trans_le hs.le)⟩
  have hnot : ¬ limit < valuationCount vars := by omega
  refine ⟨by simp [hnot], ?_, ?_, by simp, by simp, by simp, by simp, by simp, fun _ => ?_⟩
  · exact iff_of_false (by simp) fun h => hno h.2
  · exact iff_of_true rfl ⟨le, hno⟩
  · refine ⟨hs.le, hnever, fun k hk => ?_⟩
    by_cases hzero : k = 0
    · subst hzero
      exact ⟨_, covers_assignmentOf hn fun _ => false, fun p hlt => by omega⟩
    · exact hs.needed k (by omega) hk

/-- Whatever the solver answers to a specification and a sketch whose lists fit their indices is
right. -/
theorem isAnswer_of_solve {o : Outcome} (hspec : specification.WellFormed)
    (hsketch : sketch.WellFormed) (fits : sketch.ListsFit)
    (h : solve specification sketch limit modules = .ok o) :
    ∃ vars, Variables specification sketch vars ∧
      IsAnswer specification sketch limit modules vars o := by
  obtain ⟨hword, hword', hwidth, vars, hv, ha⟩ := answered_of_solve h
  have hp : Posed specification sketch := ⟨hspec, hsketch, fits, hword, hword', hwidth⟩
  refine ⟨vars, hv, ?_⟩
  cases ha with
  | unknown gt => exact isAnswer_of_unknown gt
  | satisfied le ran least =>
    have hs := searched hp collected_nothing ran
    rw [Nat.zero_add] at hs
    exact isAnswer_of_satisfied hv le hs least
  | unsatisfied le ran none =>
    have hs := searched hp collected_nothing ran
    rw [Nat.zero_add] at hs
    exact isAnswer_of_unsatisfied hv le hs none

/-- A list of a variable and its complement, read by a hole, against the complement. Under both
valuations the hole has to be one. -/
theorem isAnswer_of_solve_lookup :
    let h : Hole := ⟨4, 1, none⟩
    let a := Expr.node 0 (.var "a" 1) (.word 1) []
    let inverted := Expr.node 1 (.unary .not) (.word 1) [a]
    let items := Expr.node 2 .list (.list 1 2) [a, inverted]
    let sketch := Expr.node 3 .lookup (.word 1) [items, .hole h]
    let o : Outcome := ⟨.satisfied, [(h, 1)], 2⟩
    inverted.WellFormed ∧ sketch.WellFormed ∧ sketch.ListsFit ∧
      solve inverted sketch 2 Primitive.standard = .ok o ∧
        ∃ vars, Variables inverted sketch vars ∧
          IsAnswer inverted sketch 2 Primitive.standard vars o := by
  intro h a inverted items sketch o
  have ha : a.WellFormed := wellFormed_node.mpr ⟨.var (by decide), by simp⟩
  have hinverted : inverted.WellFormed := wellFormed_node.mpr ⟨.unary, by simpa using ha⟩
  have hitems : items.WellFormed :=
    wellFormed_node.mpr ⟨.list (n := 2) (by decide), by simpa using ⟨ha, hinverted⟩⟩
  have hsketch : sketch.WellFormed :=
    wellFormed_node.mpr ⟨.lookup, by simpa [h] using hitems⟩
  have hfits : sketch.ListsFit := by
    intro t s list index w n k hmem hlist hindex
    simp [sketch, items, inverted, a] at hmem
    obtain ⟨-, -, rfl, rfl⟩ := hmem
    cases hlist
    cases hindex
    decide
  have hsolve : solve inverted sketch 2 Primitive.standard = .ok o := by
    let starts : Std.HashMap Hole Nat := Std.HashMap.ofList (numberBits 0 [h])
    have hstart : starts[h]? = some 0 :=
      (getElem?_ofList (by simp [numberBits])).mpr (by simp [numberBits])
    have hwalk : inverted.walk = [inverted, a] := by
      simp [walk_eq_eraseDups, inverted, a, preorder, preorderAll, List.eraseDups_cons]
    have hwalk' : sketch.walk = [sketch, items, a, inverted, .hole h] := by
      simp [walk_eq_eraseDups, sketch, items, inverted, a, preorder, preorderAll,
        List.eraseDups_cons]
    have hvars : freeVariables inverted sketch = .ok [("a", 1)] := by
      rw [freeVariables, freeVars, freeVars, hwalk, hwalk']
      exact congrArg Except.ok (List.mergeSort_singleton _)
    -- Under each of the two values of the variable the item at position one is demanded.
    have hagree : ∀ b : Bool, ∀ demand ∈ [Condition.const true, .decision 0],
        demandAgreement inverted sketch starts Primitive.standard [("a", b.toNat)] demand =
          .ok (Condition.decision 0) := by
      intro b demand hdemand
      have hx : eval (symbolic [("a", b.toNat)] starts Primitive.standard) a =
          .ok (.word [.const b]) := by cases b <;> rfl
      have hy : eval (symbolic [("a", b.toNat)] starts Primitive.standard) inverted =
          .ok (.word [.const !b]) := by cases b <;> rfl
      have hlist : eval (symbolic [("a", b.toNat)] starts Primitive.standard) items =
          .ok (.list [[.const b], [.const !b]]) := by
        rw [eval, evalAll_eq_ok.mpr (.cons hx (.cons hy .nil))]
        rfl
      have hhole : eval (symbolic [("a", b.toNat)] starts Primitive.standard) (.hole h) =
          .ok (.word [Condition.decision 0]) := by
        simp only [eval, symbolic, hstart]
        rfl
      obtain ⟨bit, hvalue, hbit⟩ : ∃ bit,
          eval (symbolic [("a", b.toNat)] starts Primitive.standard) sketch = .ok (.word [bit]) ∧
            ∀ τ, bit.holds τ = if τ 0 then !b else b := by
        rw [eval, evalAll_eq_ok.mpr (.cons hlist (.cons hhole .nil))]
        have hfree : BitAlgebra.constants? [Condition.decision 0] = none := rfl
        refine ⟨_, congrArg (Except.ok ∘ Value.word) (by rw [lookupItem, hfree]; rfl), fun τ => ?_⟩
        have hread := Condition.laws.isReading τ
        rw [Condition.laws.holds_ite, Condition.laws.holds_ite]
        simp only [hread.holdsPosition_iff]
        cases hτ : τ 0 <;> simp [hτ, Word.toNat, twoPow]
      have hspec : eval (.concrete [("a", b.toNat)] ∅ Primitive.standard) inverted =
          .ok (.word [!b]) := by cases b <;> rfl
      rw [← evaluate_eq_eval] at hvalue hspec
      refine demandAgreement_eq_ok.mpr ⟨_, _, _, hspec, rfl, hvalue, ?_⟩
      refine Condition.laws.ext fun τ => ?_
      rcases List.mem_pair.mp hdemand with rfl | rfl
      all_goals cases b <;> simp [hbit]
    have hsearch : search inverted sketch (Std.HashMap.ofList (numberBits 0 [h]))
        Primitive.standard [("a", 1)] 2 0 (.const true) = .ok (2, .decision 0) := by
      have hfirst := hagree false (.const true) (by simp)
      have hsecond := hagree true (.decision 0) (by simp)
      rw [search, show valuation [("a", 1)] 0 = [("a", (false.toNat : Int))] from rfl, hfirst]
      change search inverted sketch starts Primitive.standard [("a", 1)] 1 1 (.decision 0) = _
      rw [search, show valuation [("a", 1)] 1 = [("a", (true.toNat : Int))] from rfl, hsecond]
      rfl
    have hholes : inverted.holes = [] := by rw [holes, hwalk]; rfl
    have hholes' : sketch.holes = [h] := by rw [holes, hwalk']; rfl
    rw [solve, hholes, hholes', hvars]
    simp only [bind, Except.bind, show valuationCount [("a", 1)] = 2 from rfl, hsearch]
    rfl
  exact ⟨hinverted, hsketch, hfits, hsolve, isAnswer_of_solve hinverted hsketch hfits hsolve⟩

end Solve
end CircuitSketch
