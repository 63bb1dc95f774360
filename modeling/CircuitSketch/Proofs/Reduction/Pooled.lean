import CircuitSketch.Proofs.Interface.Programmed
import CircuitSketch.Proofs.Reduction.Tree

/-!
# Programmed reductions

A tree whose tables all have one operation, and whose pads are all its neutral bit, computes this
operation over every bit of the rows. Neither order nor grouping counts for the operation, so the
windows and the number of levels do not show in the result.
-/
namespace CircuitSketch

/-- Every table of a reduction is programmed with an operation over the bits that it reads, and
every pad is the neutral bit. -/
structure ReductionProgram.PooledBy (s : ReductionProgram) (σ : Assignment)
    (op : Bool → Bool → Bool) (e : Bool) : Prop where
  luts : ∀ r ∈ s.levels, ∀ l ∈ r.luts, σ.Programs l fun bits => bits.foldr op e
  pads : ∀ r ∈ s.levels, ∀ k ∈ r.pad, σ[k]? = some (.number e.toNat)

namespace ReductionProgram

variable {s : ReductionProgram} {σ : Assignment} {op : Bool → Bool → Bool} {e : Bool}

theorem PooledBy.covers (complete : s.Complete) (h : s.PooledBy σ op e) : σ.Covers s.holes := by
  intro k hk
  obtain ⟨r, hr, hk⟩ := List.mem_flatMap.mp hk
  rcases List.mem_append.mp hk with hk | hk
  · obtain ⟨l, hl, hk⟩ := List.mem_flatMap.mp hk
    exact (h.luts r hr l hl).covers ((complete r hr).luts l hl).nodup k hk
  · have hvalue := h.pads r hr k (Option.mem_toList.mp hk)
    exact Std.HashMap.isSome_getElem?_iff_mem.mp (by rw [hvalue]; rfl)

theorem PooledBy.truth (complete : s.Complete) (h : s.PooledBy σ op e) {r : RowProgram}
    (hr : r ∈ s.levels) : r.PooledBy σ.truth op e where
  luts l hl := (h.luts r hr l hl).computes ((complete r hr).luts l hl)
  pad k hk := Assignment.truth_of_number (h.pads r hr k hk)

end ReductionProgram

namespace Reduction

open CircuitSketch.Expr

variable {p : Platform} {rows : List (List Expr)} {share : Bool} {next last : Nat} {bit : Expr}
  {s : ReductionProgram}

/-- A reduction that is programmed with an operation computes it over all bits of the rows. -/
theorem interpret_reduce {op : Bool → Bool → Bool} {e : Bool} (hop : Pools op e)
    (wellFormed : ∀ row ∈ rows, ∀ x ∈ row, x.WellFormed)
    (h : reduce p (rows.map fun row => row.map .expr) none share next = .ok ((bit, s), last))
    {env : Valuation} {σ : Assignment} {vals : List (List Bool)}
    (hvals : List.Forall₂ (List.Forall₂ fun x b =>
      x.interpret env σ Primitive.standard = .ok b.toNat) rows vals)
    (pooled : s.PooledBy σ op e) :
    bit.interpret env σ Primitive.standard = .ok (vals.flatten.foldr op e).toNat := by
  obtain ⟨length, hspec⟩ := reduce_spec (by simp) h
  have hsettles : (Context.concrete env σ Primitive.standard).Settles σ.truth s.holes :=
    Context.settles_concrete env hspec.complete.ones (pooled.covers hspec.complete)
  refine interpret_bit_of_eval hspec.shape (hspec.eval_pooled hop hsettles (fun r hr => ?_) ?_)
  · exact pooled.truth hspec.complete hr
  · exact hspec.even.eval_of_interpret wellFormed hvals

/-- Five bits in two windows, and a second level; both levels have a pad. -/
theorem interpret_reduce_five : ∃ bit s last,
    reduce .latticeEcp5 ([["a", "b", "c", "d", "e"].zipIdx.map fun n => input n.2 n.1 1].map
      fun row => row.map .expr) none true 5 = .ok ((bit, s), last) ∧
    ∀ q ∈ [(and, true, 0), (or, false, 1), (Bool.xor, false, 1)], ∃ σ, s.PooledBy σ q.1 q.2.1 ∧
      bit.interpret [("a", 1), ("b", 1), ("c", 0), ("d", 1), ("e", 0)] σ Primitive.standard =
        .ok q.2.2 := by
  let low : List Hole := (List.range' 6 16).map (⟨·, 1, none⟩)
  let top : List Hole := (List.range' 31 16).map (⟨·, 1, none⟩)
  let pads : List Hole := [5, 30].map (⟨·, 1, none⟩)
  let s : ReductionProgram :=
    ⟨[⟨[⟨4, low⟩], some ⟨5, 1, none⟩⟩, ⟨[⟨4, top⟩], some ⟨30, 1, none⟩⟩]⟩
  obtain ⟨bit, last, h⟩ : ∃ bit last,
      reduce .latticeEcp5 ([["a", "b", "c", "d", "e"].zipIdx.map fun n => input n.2 n.1 1].map
        fun row => row.map .expr) none true 5 = .ok ((bit, s), last) :=
    Build.exists_of_program (by decide +kernel)
  let τ (op : Bool → Bool → Bool) (e : Bool) (k : Hole) : Bool :=
    if k ∈ pads then e else (Word.ofNat 4 (k.tag - if k ∈ low then 6 else 31)).foldr op e
  let σ (op : Bool → Bool → Bool) (e : Bool) : Assignment :=
    .ofTruth (low ++ top ++ pads) (τ op e)
  have pooled {op : Bool → Bool → Bool} {e : Bool}
      (entries : ∀ table ∈ [low, top], ∀ entry ∈ table.zipIdx,
        τ op e entry.1 = (Word.ofNat 4 entry.2).foldr op e) : s.PooledBy (σ op e) op e := by
    refine ⟨fun r hr l hl => ?_, fun r hr k hk => ?_⟩
    · rcases List.mem_pair.mp hr with rfl | rfl <;> obtain rfl := List.mem_singleton.mp hl
      · exact Assignment.programs_ofTruth (by decide) (by simp) (entries low (by simp))
      · exact Assignment.programs_ofTruth (by decide) (fun k hk => by simp [show k ∈ top from hk])
          (entries top (by simp))
    · have hpad : k ∈ pads := by
        rcases List.mem_pair.mp hr with rfl | rfl <;> obtain rfl := Option.some.inj hk
        · simp [pads]
        · simp [pads]
      rw [Assignment.getElem?_ofTruth (by simp [hpad])]
      simp only [τ, if_pos hpad]
  let env : Valuation := [("a", 1), ("b", 1), ("c", 0), ("d", 1), ("e", 0)]
  have value {t : Nat} {name : String} {b : Bool} (τ : Assignment)
      (found : env.lookup name = some (b.toNat : Int)) :
      (input t name 1).interpret env τ Primitive.standard = .ok b.toNat :=
    interpret_input found (by cases b <;> decide)
  have run {op : Bool → Bool → Bool} {e : Bool} (hop : Pools op e)
      (hs : s.PooledBy (σ op e) op e) : bit.interpret env (σ op e) Primitive.standard =
        .ok ([true, true, false, true, false].foldr op e).toNat := by
    have hvals : List.Forall₂ (List.Forall₂ fun x b =>
        x.interpret env (σ op e) Primitive.standard = .ok b.toNat)
          [["a", "b", "c", "d", "e"].zipIdx.map fun n => input n.2 n.1 1]
          [[true, true, false, true, false]] :=
      .cons (.cons (value _ rfl) (.cons (value _ rfl) (.cons (value _ rfl) (.cons (value _ rfl)
        (.cons (value _ rfl) .nil))))) .nil
    exact interpret_reduce hop (by simp [wellFormed_input]) h hvals hs
  refine ⟨bit, s, last, h, List.forall_mem_cons.mpr ⟨?_, List.forall_mem_cons.mpr ⟨?_,
    List.forall_mem_singleton.mpr ?_⟩⟩⟩
  · exact ⟨σ and true, pooled (by decide), run pools_and (pooled (by decide))⟩
  · exact ⟨σ or false, pooled (by decide), run pools_or (pooled (by decide))⟩
  · exact ⟨σ Bool.xor false, pooled (by decide), run pools_xor (pooled (by decide))⟩

end Reduction
end CircuitSketch
