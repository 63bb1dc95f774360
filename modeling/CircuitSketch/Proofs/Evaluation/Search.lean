import CircuitSketch.Proofs.Evaluation.HoleBits
import CircuitSketch.Proofs.Evaluation.Variables

/-!
# What the search for a solution demands

The search goes through the valuations and collects one condition. At every point the condition
holds exactly for the decisions that make the sketch agree with the specification under all
valuations looked at so far. So it can no longer be met exactly when no assignment agrees under all
of them, and then the search stops.
-/
namespace CircuitSketch

namespace Solve

/-- Under an assignment of its holes the sketch yields the number of the specification. -/
def Agrees (specification sketch : Expr) (modules : ModuleTable) (σ : Assignment)
    (env : Valuation) : Prop :=
  ∃ n, specification.interpret env ∅ modules = .ok n ∧ sketch.interpret env σ modules = .ok n

/-- A specification and a sketch that the solver can work on. -/
structure Posed (specification sketch : Expr) : Prop where
  wellFormed : specification.WellFormed
  sketchWellFormed : sketch.WellFormed
  fits : sketch.ListsFit
  isWord : specification.isWord
  sketchIsWord : sketch.isWord
  width : specification.width = sketch.width

variable {specification sketch : Expr} {modules : ModuleTable}

/-- A valuation is looked at by reading the number of the specification against the bits of the
sketch. -/
theorem demandAgreement_eq_ok {starts : Std.HashMap Hole Nat} {env : Valuation}
    {demand next : Condition} :
    demandAgreement specification sketch starts modules env demand = .ok next ↔
      ∃ value n bits, specification.evaluate (.concrete env ∅ modules) = .ok value ∧
        value.toNat = .ok n ∧ sketch.evaluate (symbolic env starts modules) = .ok (.word bits) ∧
          next = bits.zipIdx.foldl
            (fun demand b => demand.and (if n.testBit b.2 then b.1 else b.1.not)) demand := by
  have hcontext : (⟨fun name => env.lookup name, fun _ => none, modules⟩ : Context Bool) =
      .concrete env ∅ modules := by
    simp [Context.concrete, Assignment.bits?, funext_iff]
  constructor
  · intro h
    obtain ⟨n, hn, h⟩ := bind_eq_ok h
    obtain ⟨value, hvalue, hn⟩ := bind_eq_ok hn
    rw [hcontext] at hvalue
    obtain ⟨v, hv, h⟩ := bind_eq_ok h
    cases v with
    | word bits =>
      cases h
      exact ⟨value, n, bits, hvalue, hn, hv, rfl⟩
    | _ => cases h
  · rintro ⟨value, n, bits, hvalue, hn, hv, rfl⟩
    rw [demandAgreement, hcontext, hvalue, hv]
    simp only [bind, Except.bind, hn]

/-- What one valuation adds to the demand: that the sketch agrees under it. -/
theorem demandAgreement_spec (hp : Posed specification sketch) {env : Valuation}
    {demand next : Condition}
    (h : demandAgreement specification sketch (Std.HashMap.ofList (numberBits 0 sketch.holes))
      modules env demand = .ok next) {σ : Assignment} {τ : Nat → Bool}
    (hd : Decides sketch.holes σ τ) :
    next.holds τ ↔ demand.holds τ ∧ Agrees specification sketch modules σ env := by
  obtain ⟨value, n, bits, hvalue, hn, hv, rfl⟩ := demandAgreement_eq_ok.mp h
  have hspec : specification.interpret env ∅ modules = .ok n := by
    rw [Expr.interpret, hvalue, if_pos hp.isWord]
    exact hn
  have hlt : n < twoPow sketch.width := by
    obtain ⟨bits, -, hlen, rfl⟩ := Expr.exists_bits_of_interpret hp.wellFormed hspec
    rw [← hp.width, ← hlen]
    exact Word.toNat_lt bits
  rw [Expr.evaluate_eq_eval] at hv
  have hshape := Expr.eval_hasShape (sized_symbolic env modules _) hp.sketchWellFormed hv
  rw [Expr.isWord_iff.mp hp.sketchIsWord] at hshape
  obtain ⟨_, ⟨rfl⟩, hlen⟩ := hshape.exists_word
  have hreads := hd.reads env modules sketch.nodup_holes
  have hread := Condition.laws.isReading τ
  have hsketch := Expr.interpret_of_eval hp.sketchIsWord
    (Expr.eval_read hread (sized_symbolic env modules _) hreads hp.sketchWellFormed hp.fits hv)
  refine (hread.foldl_testBit_iff n bits demand).trans (and_congr_right fun _ => ?_)
  rw [hlen, Nat.mod_eq_of_lt hlt]
  constructor
  · intro heq
    exact ⟨n, hspec, heq ▸ hsketch⟩
  · rintro ⟨m, hm, hm'⟩
    rw [hspec, Except.ok.injEq] at hm
    rw [hsketch, Except.ok.injEq] at hm'
    exact hm'.trans hm.symm

/-- Some assignment of the holes makes the sketch agree with the specification under the first
valuations. -/
def SolvableUpTo (specification sketch : Expr) (modules : ModuleTable)
    (vars : List (String × Nat)) (count : Nat) : Prop :=
  ∃ σ : Assignment, σ.Covers sketch.holes ∧
    ∀ p < count, Agrees specification sketch modules σ (valuation vars p)

/-- A condition says that the sketch agrees under the first valuations. -/
def Collected (specification sketch : Expr) (modules : ModuleTable) (vars : List (String × Nat))
    (count : Nat) (demand : Condition) : Prop :=
  ∀ σ τ, Decides sketch.holes σ τ →
    (demand.holds τ ↔ ∀ p < count, Agrees specification sketch modules σ (valuation vars p))

variable {vars : List (String × Nat)}

theorem Collected.next {count : Nat} {demand next : Condition}
    (hp : Posed specification sketch)
    (hc : Collected specification sketch modules vars count demand)
    (h : demandAgreement specification sketch (Std.HashMap.ofList (numberBits 0 sketch.holes))
      modules (valuation vars count) demand = .ok next) :
    Collected specification sketch modules vars (count + 1) next := by
  intro σ τ hd
  rw [demandAgreement_spec hp h hd, hc σ τ hd]
  constructor
  · rintro ⟨hall, hcount⟩ p hlt
    rcases Nat.lt_succ_iff_lt_or_eq.mp hlt with hlt | rfl
    · exact hall p hlt
    · exact hcount
  · intro hall
    exact ⟨fun p hlt => hall p (by omega), hall count (by omega)⟩

/-- A demand that can still be met is met by an assignment. -/
theorem Collected.solvable {count : Nat} {demand : Condition}
    (hc : Collected specification sketch modules vars count demand)
    (h : demand.constant? ≠ some false) :
    SolvableUpTo specification sketch modules vars count := by
  obtain ⟨τ, hτ⟩ := not_forall.mp (mt Condition.laws.constant?_eq_some.mpr h)
  have hd := decides_assignmentOf sketch.nodup_holes τ
  exact ⟨_, covers_assignmentOf sketch.nodup_holes τ,
    (hc _ τ hd).mp ((Bool.not_eq_false _).mp hτ)⟩

/-- What a search for a solution has found when it ends after `checked` of `stop` valuations. -/
structure Searched (specification sketch : Expr) (modules : ModuleTable)
    (vars : List (String × Nat)) (start stop checked : Nat) (demand : Condition) : Prop where
  le : checked ≤ stop
  collected : Collected specification sketch modules vars checked demand
  early : checked < stop → ∀ τ, demand.holds τ = false
  needed : ∀ k, start < k → k < checked → SolvableUpTo specification sketch modules vars k

theorem searched {remaining position checked : Nat} {demand final : Condition}
    (hp : Posed specification sketch)
    (hc : Collected specification sketch modules vars position demand)
    (h : search specification sketch (Std.HashMap.ofList (numberBits 0 sketch.holes)) modules vars
      remaining position demand = .ok (checked, final)) :
    Searched specification sketch modules vars position (position + remaining) checked final := by
  induction remaining generalizing position demand with
  | zero =>
    rw [search, Except.ok.injEq, Prod.mk.injEq] at h
    obtain ⟨rfl, rfl⟩ := h
    exact ⟨Nat.le_refl _, hc, fun hlt => by omega, fun k hk hlt => by omega⟩
  | succ remaining ih =>
    rw [search] at h
    split at h
    · cases h
    · next next hnext =>
      have hc' := hc.next hp hnext
      split at h
      · next hfalse =>
        rw [Except.ok.injEq, Prod.mk.injEq] at h
        obtain ⟨rfl, rfl⟩ := h
        exact ⟨by omega, hc', fun _ => Condition.laws.constant?_eq_some.mp hfalse,
          fun k hk hlt => by omega⟩
      · next hopen =>
        have hstop : position + 1 + remaining = position + (remaining + 1) := by omega
        obtain ⟨hle, hcollected, hearly, hneeded⟩ := hstop ▸ ih hc' h
        refine ⟨hle, hcollected, hearly, fun k hk hlt => ?_⟩
        by_cases heq : k = position + 1
        · exact heq ▸ hc'.solvable hopen
        · exact hneeded k (by omega) hlt

end Solve
end CircuitSketch
