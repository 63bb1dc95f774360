import CircuitSketch.Proofs.Expr.Grown

/-!
# What a stretch of a build adds

A build hands out tags in order, so the holes that a stretch of it makes have tags from an interval
of their own. `Sketched` records what a stretch does: the words it grows from given ones, the holes
that program them, each handed in or made on the way, and that no new hole both programs and settles
a choice. Stretches are put together by `Sketched.step`, in the order in which they run.
-/
namespace CircuitSketch

/-- A hole made between two tags to settle choices. If it is also used for programming, it was
handed in for that. -/
structure Chosen (given program : List Hole) (lo hi : Nat) (h : Hole) : Prop where
  ge : lo ≤ h.tag
  lt : h.tag < hi
  given : h ∈ program → h ∈ given

/-- Between the tags `lo` and `hi` a build grows the expressions `ys` from `xs`. They are programmed
by the holes `program`, which are among those handed in or new. -/
structure Sketched (xs : List Expr) (given program : List Hole) (lo hi : Nat) (ys : List Expr) :
    Prop where
  le : lo ≤ hi
  issued : ∀ h ∈ program, h ∈ given ∨ lo ≤ h.tag ∧ h.tag < hi
  grown : ∀ y ∈ ys, y.Grown (· ∈ xs) (· ∈ program) (Chosen given program lo hi)

namespace Sketched

open CircuitSketch.Expr

variable {xs xs' ys ys' zs : List Expr} {given given' program : List Hole} {lo lo' mid hi hi' : Nat}

/-- Expressions grown without holes. -/
theorem of_grown (given : List Hole) (le : lo ≤ hi)
    (h : ∀ y ∈ ys, y.Grown (· ∈ xs) (fun _ => False) (fun _ => False)) :
    Sketched xs given [] lo hi ys where
  le := le
  issued := by simp
  grown y hy := (h y hy).mono (fun _ hx => hx) (fun _ => False.elim) (fun _ => False.elim)

/-- The given expressions need no building. -/
theorem refl (le : lo ≤ hi) (sub : ys ⊆ xs) : Sketched xs given [] lo hi ys :=
  of_grown given le fun _ hy => .operand (sub hy)

theorem weaken (h : Sketched xs given program lo hi ys) (hxs : xs ⊆ xs') (hys : ys' ⊆ ys)
    (hgiven : given ⊆ given') (hlo : lo' ≤ lo) (hhi : hi ≤ hi') :
    Sketched xs' given' program lo' hi' ys' where
  le := by
    have := h.le
    omega
  issued k hk := by
    rcases h.issued k hk with hk | ⟨hge, hlt⟩
    · exact .inl (hgiven hk)
    · exact .inr ⟨by omega, by omega⟩
  grown y hy := (h.grown y (hys hy)).mono (fun _ hx => hxs hx) (fun _ hk => hk) fun k hk =>
    ⟨hlo.trans hk.ge, hk.lt.trans_le hhi, fun hp => hgiven (hk.given hp)⟩

/-- One stretch after another. The second may start from what the first has made, and may be handed
the holes that program the first. -/
theorem step {xa xb ya yb : List Expr} {givenA givenB programA programB : List Hole}
    (first : Sketched xa givenA programA lo mid ya) (next : Sketched xb givenB programB mid hi yb)
    (hgivenA : givenA ⊆ given) (hgivenB : givenB ⊆ given ++ programA)
    (hprogram : ∀ h, h ∈ program ↔ h ∈ programA ∨ h ∈ programB) (hxa : xa ⊆ xs)
    (hxb : xb ⊆ xs ++ ya) (hys : ys ⊆ xs ++ ya ++ yb) :
    Sketched xs given program lo hi ys := by
  have hlo := first.le
  have hhi := next.le
  have issuedA : ∀ h ∈ programA, h ∈ given ∨ lo ≤ h.tag ∧ h.tag < mid := fun h hh =>
    (first.issued h hh).imp_left fun hg => hgivenA hg
  have issuedB : ∀ h ∈ programB, h ∈ given ∨ h ∈ programA ∨ mid ≤ h.tag ∧ h.tag < hi := by
    intro h hh
    rcases next.issued h hh with hg | htag
    · exact (List.mem_append.mp (hgivenB hg)).imp_right .inl
    · exact .inr (.inr htag)
  have chosenA : ∀ h, Chosen givenA programA lo mid h → Chosen given program lo hi h := by
    intro h hc
    refine ⟨hc.ge, hc.lt.trans_le hhi, fun hp => ?_⟩
    have hlt := hc.lt
    rcases (hprogram h).mp hp with hp | hp
    · exact hgivenA (hc.given hp)
    · rcases issuedB h hp with hg | hp | htag
      · exact hg
      · exact hgivenA (hc.given hp)
      · omega
  have chosenB : ∀ h, Chosen givenB programB mid hi h → Chosen given program lo hi h := by
    intro h hc
    have hge := hc.ge
    have old : h ∈ programA → h ∈ given := by
      intro hp
      rcases issuedA h hp with hg | htag
      · exact hg
      · omega
    refine ⟨hlo.trans hge, hc.lt, fun hp => ?_⟩
    rcases (hprogram h).mp hp with hp | hp
    · exact old hp
    · exact (List.mem_append.mp (hgivenB (hc.given hp))).elim id old
  have grownA : ∀ y ∈ ya, y.Grown (· ∈ xs) (· ∈ program) (Chosen given program lo hi) :=
    fun y hy => (first.grown y hy).mono (fun _ hx => hxa hx) (fun h hh => (hprogram h).mpr (.inl hh))
      chosenA
  refine ⟨hlo.trans hhi, fun h hh => ?_, fun y hy => ?_⟩
  · rcases (hprogram h).mp hh with hp | hp
    · exact (issuedA h hp).imp_right fun htag => ⟨htag.1, by omega⟩
    · rcases issuedB h hp with hg | hp | htag
      · exact .inl hg
      · exact (issuedA h hp).imp_right fun htag => ⟨htag.1, by omega⟩
      · exact .inr ⟨by omega, htag.2⟩
  · rcases List.mem_append.mp (hys hy) with hy | hy
    · rcases List.mem_append.mp hy with hy | hy
      · exact .operand hy
      · exact grownA y hy
    · refine (next.grown y hy).trans (fun x hx => ?_) (fun h hh => (hprogram h).mpr (.inr hh))
        chosenB
      exact (List.mem_append.mp (hxb hx)).elim .operand (grownA x)

/-- Choices among what has been made, settled by holes that the stretch has made for that. -/
theorem select (selectors : List Hole) (h : Sketched xs given program lo hi ys)
    (hs : ∀ k ∈ selectors, Chosen given program lo hi k) (le : hi ≤ hi')
    (hz : ∀ z ∈ zs, z.Grown (· ∈ ys) (fun _ => False) (· ∈ selectors)) :
    Sketched xs given program lo hi' zs := by
  have later := h.weaken (List.Subset.refl xs) (List.Subset.refl ys) (List.Subset.refl given)
    (le_refl lo) le
  exact ⟨later.le, later.issued, fun z hmem => (hz z hmem).trans later.grown (fun _ => False.elim)
    fun k hk => ⟨(hs k hk).ge, (hs k hk).lt.trans_le le, (hs k hk).given⟩⟩

/-- Several independent expressions that need no program, each made on the way. -/
theorem of_forall (le : lo ≤ hi)
    (h : ∀ y ∈ ys, ∃ a b, lo ≤ a ∧ b ≤ hi ∧ Sketched xs given [] a b [y]) :
    Sketched xs given [] lo hi ys where
  le := le
  issued := by simp
  grown y hy := by
    obtain ⟨a, b, ha, hb, hsketched⟩ := h y hy
    exact (hsketched.weaken (List.Subset.refl xs) (List.Subset.refl _) (List.Subset.refl given) ha
      hb).grown y (by simp)

end Sketched
end CircuitSketch
