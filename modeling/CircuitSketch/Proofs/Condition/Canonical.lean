import CircuitSketch.Condition.Basic

/-!
# Diagrams without waste

Every function has one diagram without waste: it starts with the first decision that the function
depends on. So a condition that never holds is seen to be so. The least way to one, with zero for
every decision that is not on it, is the first solution in the order in which decisions with smaller
numbers count first and zero comes before one.
-/
namespace CircuitSketch

namespace Diagram

/-- A diagram over decisions from `n` on depends on no others. -/
theorem Above.eval_congr {n : Nat} {d : Diagram} (h : d.Above n) {σ τ : Nat → Bool}
    (same : ∀ i, n ≤ i → σ i = τ i) : d.eval σ = d.eval τ := by
  induction d generalizing n with
  | leaf b => rfl
  | branch v a b iha ihb =>
    obtain ⟨hle, -, ha, hb⟩ := h
    have hsame : ∀ i, v + 1 ≤ i → σ i = τ i := fun i hi => same i (by omega)
    rw [eval, eval, same v hle, iha ha hsame, ihb hb hsame]

/-- The decisions with one of them set. -/
def set (σ : Nat → Bool) (v : Nat) (b : Bool) (i : Nat) : Bool := if i = v then b else σ i

theorem Above.eval_set {v : Nat} {d : Diagram} (h : d.Above (v + 1)) (σ : Nat → Bool) (b : Bool) :
    d.eval (set σ v b) = d.eval σ := by
  refine h.eval_congr fun i hi => ?_
  have hne : i ≠ v := by omega
  exact if_neg hne

theorem eval_branch_set {v : Nat} {a b : Diagram} (ha : a.Above (v + 1)) (hb : b.Above (v + 1))
    (σ : Nat → Bool) (x : Bool) :
    (branch v a b).eval (set σ v x) = if x then b.eval σ else a.eval σ := by
  have hv : set σ v x v = x := if_pos rfl
  rw [eval, hv, ha.eval_set, hb.eval_set]

/-- Where a branch is the function of a diagram over later decisions, so are both of its sides. -/
theorem eval_sides {v : Nat} {a b d : Diagram} (ha : a.Above (v + 1)) (hb : b.Above (v + 1))
    (hd : d.Above (v + 1)) (same : ∀ σ, (branch v a b).eval σ = d.eval σ) :
    (∀ σ, a.eval σ = d.eval σ) ∧ ∀ σ, b.eval σ = d.eval σ := by
  constructor
  · intro σ
    have hset := same (set σ v false)
    rwa [eval_branch_set ha hb, hd.eval_set] at hset
  · intro σ
    have hset := same (set σ v true)
    rwa [eval_branch_set ha hb, hd.eval_set] at hset

/-- Every function has one diagram without waste. -/
theorem Above.ext {n : Nat} {c d : Diagram} (hc : c.Above n) (hd : d.Above n)
    (same : ∀ σ, c.eval σ = d.eval σ) : c = d := by
  induction c generalizing n d with
  | leaf x =>
    induction d generalizing n with
    | leaf y => exact congrArg leaf (same fun _ => false)
    | branch w a' b' iha ihb =>
      obtain ⟨-, hne, ha', hb'⟩ := hd
      have hx : (leaf x).Above (w + 1) := trivial
      obtain ⟨hleft, hright⟩ := eval_sides ha' hb' hx fun σ => (same σ).symm
      have hxa := iha hx ha' fun σ => (hleft σ).symm
      have hxb := ihb hx hb' fun σ => (hright σ).symm
      exact absurd (hxa.symm.trans hxb) hne
  | branch v a b iha ihb =>
    -- The decision on top decides which side goes down: a function has its first decision on top.
    induction d generalizing n with
    | leaf y =>
      obtain ⟨-, hne, ha, hb⟩ := hc
      have hy : (leaf y).Above (v + 1) := trivial
      obtain ⟨hleft, hright⟩ := eval_sides ha hb hy same
      exact absurd ((iha ha hy hleft).trans (ihb hb hy hright).symm) hne
    | branch w a' b' iha' ihb' =>
      rcases Nat.lt_trichotomy v w with hlt | rfl | hgt
      · obtain ⟨-, hne, ha, hb⟩ := hc
        have hd' : (branch w a' b').Above (v + 1) := ⟨hlt, hd.2⟩
        obtain ⟨hleft, hright⟩ := eval_sides ha hb hd' same
        exact absurd ((iha ha hd' hleft).trans (ihb hb hd' hright).symm) hne
      · obtain ⟨-, -, ha, hb⟩ := hc
        obtain ⟨-, -, ha', hb'⟩ := hd
        have hside (σ : Nat → Bool) (x : Bool) :
            (if x then b.eval σ else a.eval σ) = if x then b'.eval σ else a'.eval σ := by
          have hset := same (set σ v x)
          rwa [eval_branch_set ha hb, eval_branch_set ha' hb'] at hset
        rw [iha ha ha' fun σ => hside σ false, ihb hb hb' fun σ => hside σ true]
      · obtain ⟨-, hne, ha', hb'⟩ := hd
        have hc' : (branch v a b).Above (w + 1) := ⟨hgt, hc.2⟩
        obtain ⟨hleft, hright⟩ := eval_sides ha' hb' hc' fun σ => (same σ).symm
        have hca := iha' hc' ha' fun σ => (hleft σ).symm
        have hcb := ihb' hc' hb' fun σ => (hright σ).symm
        exact absurd (hca.symm.trans hcb) hne

/-- The decisions that are one on a way. -/
def onesOf (path : List (Nat × Bool)) : List Nat :=
  path.filterMap fun step => if step.2 then some step.1 else none

/-- What is known of the least way of a diagram over decisions from `n` on: its ones are such
decisions, it solves the diagram, and no solution has a zero where it first differs from it by
having one there. -/
structure IsLeast (n : Nat) (d : Diagram) (ones : List Nat) : Prop where
  ge : ∀ i ∈ ones, n ≤ i
  solves : d.eval ones.contains = true
  least : ∀ τ, d.eval τ = true →
    ∀ i, n ≤ i → (∀ j, n ≤ j → j < i → τ j = ones.contains j) → ones.contains i → τ i

theorem isLeast_of_ifZero {n v : Nat} {a b : Diagram} {ones : List Nat} (hle : n ≤ v)
    (h : IsLeast (v + 1) a ones) : IsLeast n (branch v a b) ones := by
  have hv : ones.contains v = false := by
    rw [← Bool.not_eq_true, List.contains_iff_mem]
    intro hmem
    have := h.ge v hmem
    omega
  refine ⟨fun i hi => ?_, ?_, fun τ hτ i hi hj hone => ?_⟩
  · have := h.ge i hi
    omega
  · rw [eval, hv]
    exact h.solves
  · have hge : v + 1 ≤ i := h.ge i (List.contains_iff_mem.mp hone)
    have hτv : τ v = false := (hj v hle (by omega)).trans hv
    rw [eval, hτv] at hτ
    exact h.least τ hτ i hge (fun j hjv hji => hj j (by omega) hji) hone

theorem isLeast_of_ifOne {n v : Nat} {a b : Diagram} {ones : List Nat} (hle : n ≤ v)
    (ha : ∀ τ, a.eval τ = false) (hb : b.Above (v + 1)) (h : IsLeast (v + 1) b ones) :
    IsLeast n (branch v a b) (v :: ones) := by
  have hcons : ∀ j, v + 1 ≤ j → (v :: ones).contains j = ones.contains j := by
    intro j hj
    have hne : (j == v) = false := beq_false_of_ne (by omega)
    rw [List.contains_cons, hne, Bool.false_or]
  refine ⟨fun i hi => ?_, ?_, fun τ hτ i hi hj hone => ?_⟩
  · rcases List.mem_cons.mp hi with rfl | hi
    · exact hle
    · have := h.ge i hi
      omega
  · have hv : (v :: ones).contains v = true := by simp
    rw [eval, hv, if_pos rfl, hb.eval_congr hcons]
    exact h.solves
  · have hτv : τ v = true := by
      cases hzero : τ v with
      | true => rfl
      | false =>
        rw [eval, hzero] at hτ
        exact (ha τ).symm.trans hτ
    rw [eval, hτv] at hτ
    by_cases hiv : i = v
    · exact hiv ▸ hτv
    · have hmem : i ∈ ones := by simpa [hiv] using hone
      have hge : v + 1 ≤ i := h.ge i hmem
      refine h.least τ hτ i hge (fun j hjv hji => ?_) (List.contains_iff_mem.mpr hmem)
      rw [hj j (by omega) hji, hcons j hjv]

/-- A diagram has no least way exactly when it is never one, and its least way is least. -/
theorem Above.leastPath_spec {n : Nat} {d : Diagram} (h : d.Above n) :
    match d.leastPath with
    | none => ∀ τ, d.eval τ = false
    | some path => IsLeast n d (onesOf path) := by
  induction d generalizing n with
  | leaf b =>
    cases b with
    | false => exact fun τ => rfl
    | true => exact ⟨by simp [onesOf], rfl, by simp [onesOf]⟩
  | branch v a b iha ihb =>
    obtain ⟨hle, -, ha, hb⟩ := h
    have hleft := iha ha
    have hright := ihb hb
    rw [leastPath]
    cases hpa : a.leastPath with
    | some path =>
      rw [hpa] at hleft
      exact isLeast_of_ifZero hle hleft
    | none =>
      rw [hpa] at hleft
      cases hpb : b.leastPath with
      | some path =>
        rw [hpb] at hright
        exact isLeast_of_ifOne hle hleft hb hright
      | none =>
        rw [hpb] at hright
        intro τ
        rw [eval, hleft, hright]
        split <;> rfl

end Diagram

namespace Condition

/-- Conditions that hold alike are one condition. -/
theorem ext_holds {c d : Condition} (same : ∀ τ, c.holds τ = d.holds τ) : c = d := by
  cases c with
  | mk c hc =>
    cases d with
    | mk d hd =>
      obtain rfl := hc.ext hd same
      rfl

theorem constant?_eq_some_iff {c : Condition} {b : Bool} : c.constant? = some b ↔ c = const b := by
  constructor
  · exact fun h => ext_holds fun τ => holds_of_constant? h
  · rintro rfl
    rfl

theorem leastSolution_eq_none {c : Condition} (h : c.leastSolution = none) (τ : Nat → Bool) :
    c.holds τ = false := by
  have hspec := c.above.leastPath_spec
  rw [leastSolution, Option.map_eq_none_iff] at h
  rw [h] at hspec
  exact hspec τ

/-- The least solution of a condition is a solution, and where another solution first differs from
it, that one has a one. -/
theorem leastSolution_eq_some {c : Condition} {ones : List Nat} (h : c.leastSolution = some ones) :
    c.holds ones.contains ∧ ∀ τ, c.holds τ →
      ∀ i, (∀ j < i, τ j = ones.contains j) → ones.contains i → τ i := by
  have hspec := c.above.leastPath_spec
  obtain ⟨path, hpath, rfl⟩ := Option.map_eq_some_iff.mp h
  rw [hpath] at hspec
  exact ⟨hspec.solves, fun τ hτ i hj hone =>
    hspec.least τ hτ i (Nat.zero_le i) (fun j _ hji => hj j hji) hone⟩

end Condition
end CircuitSketch
