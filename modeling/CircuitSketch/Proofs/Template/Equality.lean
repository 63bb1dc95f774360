import CircuitSketch.Proofs.Reduction.Total
import CircuitSketch.Proofs.Template.Computed

/-!
# Equality by a tree of lookup tables

A window of two rows holds a slice of the first row and then the slice of the second one, both
filled up alike. A table that compares the two halves of its inputs therefore compares the slices,
whatever the pad is, and the words are equal if all of their slices are.
-/
namespace CircuitSketch

open CircuitSketch.Expr Build

/-- Whether the first half of several bits is the same as the second half. -/
def halvesEqual (bits : List Bool) : Bool :=
  decide (bits.take (bits.length / 2) = bits.drop (bits.length / 2))

theorem halvesEqual_append {low high : List Bool} (same : low.length = high.length) :
    halvesEqual (low ++ high) = decide (low = high) := by
  have hhalf : (low ++ high).length / 2 = low.length := by
    rw [List.length_append]
    omega
  rw [halvesEqual, hhalf, List.take_left, List.drop_left]

theorem foldr_and (bits : List Bool) : bits.foldr and true = bits.all id := by
  induction bits with
  | nil => rfl
  | cons b bits ih => rw [List.foldr_cons, List.all_cons, ih, id]

namespace Row

variable {xs ys : List Bool} {window count : Nat} {pad : List Bool}

/-- The halves of a window of two rows are the slices of these rows, filled up alike. -/
theorem halvesEqual_windowOf (same : xs.length = ys.length) (k : Nat) :
    halvesEqual (windowOf [xs, ys] window k pad) =
      decide ((xs.drop (k * window)).take window = (ys.drop (k * window)).take window) := by
  have hslices : ((xs.drop (k * window)).take window).length =
      ((ys.drop (k * window)).take window).length := by simp [same]
  rw [windowOf, List.flatMap_cons, List.flatMap_singleton, halvesEqual_append (by simp [same])]
  simp only [hslices, List.append_left_inj]

/-- All windows of two rows have equal halves if the rows are equal. -/
theorem foldr_halvesEqual (same : xs.length = ys.length) (covers : xs.length ≤ count * window) :
    ((List.range count).map fun k => halvesEqual (windowOf [xs, ys] window k pad)).foldr and true =
      decide (xs = ys) := by
  rw [Bool.eq_iff_iff, decide_eq_true_iff, eq_iff_slices covers (same ▸ covers), foldr_and]
  simp [halvesEqual_windowOf same]

end Row

/-- Every table of the first level compares the halves of its inputs. Those of the later levels tell
whether all of their inputs are set, which their pads are. -/
structure ReductionProgram.ComparesBy (s : ReductionProgram) (σ : Assignment) : Prop where
  first : ∀ r ∈ s.levels.head?, ∀ l ∈ r.luts, σ.Programs l halvesEqual
  later : ∀ r ∈ s.levels.tail, ∀ l ∈ r.luts, σ.Programs l fun bits => bits.all id
  pads : ∀ r ∈ s.levels.tail, ∀ k ∈ r.pad, σ.truth k = true

namespace Template

variable {p : Platform} {e f out : Expr} {w next last : Nat} {share : Bool} {s : ReductionProgram}
  {env : Valuation} {σ : Assignment}

/-- A tree that compares by halves tells whether two words of its width are equal. -/
theorem eval_equality (hw : 0 < w) (hes : ∀ z ∈ [e, f], z.shape = .word w)
    {program : Option ReductionProgram} (hgiven : ∀ g ∈ program, g.Complete)
    (h : shallowComparisonOf p [e, f] program share next = .ok ((out, s), last))
    (compares : s.ComparesBy σ) {xs ys : List Bool}
    (hxs : eval (.settled env σ.truth) e = .ok (.word xs)) (hlx : xs.length = w)
    (hys : eval (.settled env σ.truth) f = .ok (.word ys)) (hly : ys.length = w) :
    eval (.settled env σ.truth) out = .ok (.word [decide (xs = ys)]) := by
  obtain ⟨rows, mid, -, hbits, hspec⟩ := of_shallowComparisonOf hw (by simp) hes hgiven h
  obtain ⟨window, used, outs, t, r, rs, hlevels, -, hpack, hfold⟩ := hspec.levels
  obtain ⟨hfirst, hlater, hpads⟩ := compares
  rw [hlevels] at hfirst hlater hpads
  have hvals := hbits.eval hes (.cons ⟨hxs, hlx⟩ (.cons ⟨hys, hly⟩ .nil))
  have hsettles := Context.settles_settled env σ.truth hspec.complete.ones
  rw [ReductionProgram.holes, hlevels, List.flatMap_cons] at hsettles
  have hhead := hsettles.mono (List.subset_append_left _ _)
  have htail := hsettles.mono (List.subset_append_right r.holes _)
  have hwindows := hpack.eval_computed hspec.even hhead
    (fun l hl => (hfirst r rfl l hl).computes (hpack.complete.luts l hl)) hvals
  have hpooled : ∀ q ∈ rs, q.PooledBy σ.truth and true := by
    refine fun q hq => ⟨fun l hl => ?_, hpads q hq⟩
    simpa only [foldr_and] using
      (hlater q hq l hl).computes ((hfold.complete q hq).luts l hl)
  rw [hfold.eval pools_and _ σ.truth _ htail hpooled hwindows,
    Row.foldr_halvesEqual (hlx.trans hly.symm) (hlx.le.trans (Row.le_windowCount_mul hpack.pos))]

/-- Two words can be compared by a tree if the largest lookup table has room for two rows. -/
theorem exists_shallowComparison (room : p.Packs 2) (hw : 0 < w)
    (hes : ∀ z ∈ [e, f], z.shape = .word w) (share : Bool) (next : Nat) : ∃ out s last,
      shallowComparison p [.expr e, .expr f] (.int 2) (.int w) none share next =
        .ok ((out, s), last) := by
  obtain ⟨rows, mid, hrows⟩ :=
    succeeds_mapM (fun z (_ : z ∈ [e, f]) => succeeds_bits (ε := Refusal) z) next
  obtain ⟨-, hbits⟩ := of_mapM_bits hw (by simp) hes hrows
  have hcount : rows.length = 2 := hbits.cuts.length_eq.symm
  have htwo := room.fits
  obtain ⟨out, s, last, hrun⟩ := Reduction.exists_reduce (p := p) hbits.even (hcount ▸ room)
    (by omega) share none (by simp) trivial mid
  have halike : (Datum.int 2).alike (.int 2) = true := by decide +kernel
  have hcheck : checkInputs TemplateKind.shallowComparison.demand [.expr e, .expr f] (.int 2)
      (.int w) = .ok ([e, f], w) := by
    refine checkInputs_eq_ok.mpr ⟨⟨by simp [TemplateKind.demand], rfl, halike⟩, rfl, hw, rfl,
      fun z hz => ?_⟩
    have hwidth := width_of_shape (hes z hz)
    exact ⟨isWord_of_shape (hes z hz), hwidth.le, fun _ => hwidth⟩
  exact ⟨out, s, last, shallowComparison_eq_ok.mpr
    ⟨[e, f], w, none, hcheck, rfl, (bind_of_ok hrows).trans hrun⟩⟩

/-- Two words can be compared by a tree if the largest lookup table has room for two rows, and a
tree that compares by halves tells whether they are equal. The pad of the first level makes no
difference. -/
theorem interpret_equality (room : p.Packs 2) (hw : 0 < w) (he : e.WellFormed ∧ e.holes = [])
    (hf : f.WellFormed ∧ f.holes = []) (hes : e.shape = .word w ∧ f.shape = .word w)
    (share : Bool) :
    (∀ next, ∃ out s last,
      shallowComparison p [.expr e, .expr f] (.int 2) (.int w) none share next =
        .ok ((out, s), last)) ∧
    ∀ (given : Option GivenProgram) (next last : Nat) (out : Expr) (s : ReductionProgram),
      (∀ g, given = some (.program g) → Issued g) →
        shallowComparison p [.expr e, .expr f] (.int 2) (.int w) given share next =
            .ok ((out, s), last) →
          ∀ (env : Valuation) (σ : Assignment) (x y : Nat),
            e.interpret env ∅ Primitive.standard = .ok x →
              f.interpret env ∅ Primitive.standard = .ok y → σ.Covers out.holes →
                s.ComparesBy σ →
                  out.interpret env σ Primitive.standard = .ok (decide (x = y)).toNat := by
  have hshape : ∀ z ∈ [e, f], z.shape = .word w := by simp [hes.1, hes.2]
  refine ⟨exists_shallowComparison room hw hshape share, ?_⟩
  intro given next last out s hgiven h env σ x y hx hy covers compares
  obtain ⟨es, w', program, hcheck, hhanded, hrun⟩ := shallowComparison_eq_ok.mp h
  have hnumber : (Datum.int w).number? = some (w : Int) := rfl
  obtain rfl := eq_width_of_checkInputs hnumber hcheck
  obtain rfl := eq_of_checkInputs
    (show checkInputs _ ([e, f].map .expr) (.int 2) (.int w) = _ from hcheck)
  have hcomplete := complete_of_issued hgiven hhanded
  obtain ⟨xs, hxs, hlx, rfl⟩ := eval_settled_of_interpret he.1 he.2 hx σ.truth
  obtain ⟨ys, hys, hly, rfl⟩ := eval_settled_of_interpret hf.1 hf.2 hy σ.truth
  rw [width_of_shape hes.1] at hlx
  rw [width_of_shape hes.2] at hly
  have hspec := shallowComparisonOf_spec hw (by simp) hshape hcomplete hrun
  have heval := eval_equality hw hshape hcomplete hrun compares hxs hlx hys hly
  have hiff : xs = ys ↔ Word.toNat xs = Word.toNat ys :=
    ⟨congrArg _, Word.eq_of_toNat_eq (hlx.trans hly.symm)⟩
  rw [Sketched.interpret hspec.sketched (isWord_of_shape hspec.shape) (by simp [he.2, hf.2]) covers
    heval]
  simp [hiff]

/-- Three bits in windows of two, each with a table of its own, and a second level with a pad. Five
equals five and not four. -/
theorem interpret_equality_five : ∃ out s last σ,
    shallowComparison .latticeEcp5 [.expr (input 0 "a" 3), .expr (input 1 "b" 3)] (.int 2) (.int 3)
      none false 2 = .ok ((out, s), last) ∧
    out.interpret [("a", 5), ("b", 5)] σ Primitive.standard = .ok 1 ∧
    out.interpret [("a", 5), ("b", 4)] σ Primitive.standard = .ok 0 := by
  have hinputs : ∀ e ∈ [input 0 "a" 3, input 1 "b" 3], e.WellFormed ∧ e.holes = [] := by
    simp [wellFormed_input, holes_input]
  let low : List Hole := (List.range' 9 16).map (⟨·, 1, none⟩)
  let high : List Hole := (List.range' 29 16).map (⟨·, 1, none⟩)
  let top : List Hole := (List.range' 50 16).map (⟨·, 1, none⟩)
  let pads : List Hole := [8, 49].map (⟨·, 1, none⟩)
  let ones : List Hole := [8, 9, 14, 19, 24, 29, 34, 39, 44, 49, 65].map (⟨·, 1, none⟩)
  obtain ⟨out, last, h⟩ : ∃ out last,
      shallowComparison .latticeEcp5 [.expr (input 0 "a" 3), .expr (input 1 "b" 3)] (.int 2)
        (.int 3) none false 2 = .ok ((out, ⟨[⟨[⟨4, low⟩, ⟨4, high⟩], some ⟨8, 1, none⟩⟩,
          ⟨[⟨4, top⟩], some ⟨49, 1, none⟩⟩]⟩), last) := exists_of_program (by decide +kernel)
  let σ := Assignment.ofTruth (low ++ high ++ top ++ pads ++ out.holes) ones.contains
  have covers : σ.Covers out.holes := Assignment.covers_ofTruth (List.subset_append_right _ _)
  have compares : (ReductionProgram.mk [⟨[⟨4, low⟩, ⟨4, high⟩], some ⟨8, 1, none⟩⟩,
      ⟨[⟨4, top⟩], some ⟨49, 1, none⟩⟩]).ComparesBy σ := by
    refine ⟨?_, ?_, ?_⟩
    · rintro r ⟨rfl⟩ l hl
      rcases List.mem_pair.mp hl with rfl | rfl
      · exact Assignment.programs_ofTruth (by decide) (by simp) (by decide)
      · exact Assignment.programs_ofTruth (by decide) (by simp) (by decide)
    · intro r hr l hl
      obtain rfl := List.mem_singleton.mp hr
      obtain rfl := List.mem_singleton.mp hl
      have htop : top ⊆ low ++ high ++ top ++ pads ++ out.holes := fun k hk => by simp [hk]
      exact Assignment.programs_ofTruth (by decide) htop (by decide)
    · intro r hr k hk
      obtain rfl := List.mem_singleton.mp hr
      obtain rfl := Option.some.inj hk
      exact (Assignment.truth_ofTruth (by simp [pads])).trans (by decide)
  have ha {b : Int} : (input 0 "a" 3).interpret [("a", 5), ("b", b)] ∅ Primitive.standard = .ok 5 :=
    interpret_input rfl (by decide)
  have hfive : (input 1 "b" 3).interpret [("a", 5), ("b", 5)] ∅ Primitive.standard = .ok 5 :=
    interpret_input rfl (by decide)
  have hfour : (input 1 "b" 3).interpret [("a", 5), ("b", 4)] ∅ Primitive.standard = .ok 4 :=
    interpret_input rfl (by decide)
  have room : Platform.latticeEcp5.Packs 2 :=
    (Platform.plain_of_mem_known (by simp [Platform.known])).packs_iff.mpr (by decide)
  have hruns := (interpret_equality (w := 3) room (by decide) (hinputs _ (by simp))
    (hinputs _ (by simp)) ⟨rfl, rfl⟩ false).2 none 2 last out _ (by simp) h
  exact ⟨out, _, last, σ, h, hruns _ σ 5 5 ha hfive covers compares,
    hruns _ σ 5 4 ha hfour covers compares⟩

end Template
end CircuitSketch
