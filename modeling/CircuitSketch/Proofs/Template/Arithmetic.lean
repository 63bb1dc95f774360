import CircuitSketch.Proofs.Template.Computed

/-!
# Sums, differences and comparisons

Between programmed tables a carry chain adds its inputs up, subtracts them or compares them. This
holds for chains of either style, for blocks of any size and for any layout of the positions. Inputs
that are too short are extended with zeros, which leaves their numbers as they are.
-/
namespace CircuitSketch

open CircuitSketch.Expr Build

/-- A function of the first two of several bits. -/
def ofPair (f : Bool → Bool → Bool) (bits : List Bool) : Bool :=
  f (bits.getD 0 false) (bits.getD 1 false)

/-- A table of two inputs that is programmed with a function is read as the function. -/
theorem Assignment.Programs.read_pair {σ : Assignment} {l : LutProgram} {f : Bool → Bool → Bool}
    (hl : l.Complete) (hinputs : l.inputs = 2) (h : σ.Programs l (ofPair f)) (u v : Bool) :
    l.read σ.truth [u, v] = f u v :=
  h.computes hl [u, v] (by simp [hinputs])

namespace Template

variable {p : Platform} {unit : CarryUnit} {e f out : Expr} {es wide : List Expr}
  {count width : Datum} {given : Option GivenProgram} {next last w x y lo hi : Nat}
  {env : Valuation} {σ : Assignment} {τ : Hole → Bool}

/-- Whatever a sketch extends is extended with zeros. -/
def ExtendsWithZeros (w : Nat) (τ : Hole → Bool) (out : Expr) : Prop :=
  ∀ t e, extension t w e ∈ out.preorder → τ (extensionSelector t) = false

theorem toNat_zeroExtend {bits : List Bool} (h : bits.length ≤ w) :
    Word.toNat (zeroExtend w bits) = Word.toNat bits :=
  congrArg Numeral.value (numeral_zeroExtend h)

/-- The pairs of the bits of two words that are extended with zeros. -/
theorem unzip_zeroExtend {xs ys : List Bool} (hxs : xs.length ≤ w) (hys : ys.length ≤ w) :
    Word.toNat (((zeroExtend w xs).zip (zeroExtend w ys)).map (·.1)) = Word.toNat xs ∧
      Word.toNat (((zeroExtend w xs).zip (zeroExtend w ys)).map (·.2)) = Word.toNat ys ∧
        ((zeroExtend w xs).zip (zeroExtend w ys)).length = w := by
  obtain ⟨hfst, hsnd, hlen⟩ := unzip_words (length_zeroExtend hxs) (length_zeroExtend hys)
  rw [hfst, hsnd]
  exact ⟨toNat_zeroExtend hxs, toNat_zeroExtend hys, hlen⟩

/-- The words that two inputs without holes stand for once they have passed the checks. -/
theorem words_of_checkInputs {demand : Demand} {w' : Nat} (he : e.WellFormed ∧ e.holes = [])
    (hf : f.WellFormed ∧ f.holes = [])
    (h : checkInputs demand [.expr e, .expr f] count width = .ok (es, w'))
    (hwidth : width.number? = some (w : Int)) (hx : e.interpret env ∅ Primitive.standard = .ok x)
    (hy : f.interpret env ∅ Primitive.standard = .ok y) (τ : Hole → Bool) :
    (es = [e, f] ∧ w = w' ∧ 0 < w ∧ ∀ z ∈ es, Fits w z) ∧ ∃ xs ys,
      (eval (.settled env τ) e = .ok (.word xs) ∧ xs.length = e.width ∧ xs.length ≤ w) ∧
      (eval (.settled env τ) f = .ok (.word ys) ∧ ys.length = f.width ∧ ys.length ≤ w) ∧
        Word.toNat xs = x ∧ Word.toNat ys = y := by
  obtain rfl := eq_width_of_checkInputs hwidth h
  obtain rfl := eq_of_checkInputs
    (show checkInputs _ ([e, f].map .expr) count width = _ from h)
  obtain ⟨hw, hfits⟩ := fits_of_checkInputs (by simp [he.1, hf.1]) h
  obtain ⟨xs, hxs, hlx, hxv⟩ := eval_settled_of_interpret he.1 he.2 hx τ
  obtain ⟨ys, hys, hly, hyv⟩ := eval_settled_of_interpret hf.1 hf.2 hy τ
  exact ⟨⟨rfl, rfl, hw, hfits⟩, xs, ys, ⟨hxs, hlx, hlx ▸ (hfits e (by simp)).le⟩,
    ⟨hys, hly, hly ▸ (hfits f (by simp)).le⟩, hxv, hyv⟩

/-- The values of inputs that are extended with zeros. -/
theorem eval_extensions_of_zeros {words : List (List Bool)}
    (h : List.Forall₂ (IsExtension w lo hi) es wide) (uses : ∀ y ∈ wide, y ∈ out.preorder)
    (zeros : ExtendsWithZeros w τ out)
    (hes : List.Forall₂ (fun x b => eval (.settled env τ) x = .ok (.word b) ∧ b.length ≤ w) es
      words) :
    List.Forall₂ (fun y b => eval (.settled env τ) y = .ok (.word b) ∧ b.length = w) wide
      (words.map (zeroExtend w)) := by
  induction h generalizing words with
  | nil =>
    cases hes
    exact .nil
  | @cons x _ _ _ hy _ ih =>
    cases hes with
    | cons hx hes =>
      obtain ⟨t, -, -, rfl⟩ := hy
      refine .cons ⟨?_, length_zeroExtend hx.2⟩ (ih (fun y hy => uses y (by simp [hy])) hes)
      rw [eval_extension hx.1, zeros t x (uses _ (by simp))]
      rfl

/-- Nothing but zeros extends the inputs of a sketch if only holes of its new program are set. -/
theorem extendsWithZeros_of_sketch {t : TemplateKind} {q : TemplateRequest} {s : Program}
    (hq : q.inputs = es.map .expr) (fresh : q.given = none)
    (hes : ∀ x ∈ es, x.WellFormed ∧ x.holes = []) (h : t.sketch p q next = .ok ((out, s), last))
    {ones : List Hole} (hones : ones ⊆ s.holes) :
    ExtendsWithZeros w (Assignment.ofTruth (s.holes ++ out.holes) ones.contains).truth out := by
  intro t' x hmem
  have hselect : extensionSelector t' ∈ out.selectors := mem_selectors.mpr ⟨_, _, _, _, hmem⟩
  have hnot : extensionSelector t' ∉ ones := fun hin =>
    not_mem_selectors_of_sketch hq fresh hes h (hones hin) hselect
  rw [Assignment.truth_ofTruth
    (List.mem_append_right _ (mem_holes_of_mem_selectors hselect))]
  simpa using hnot

/-- An adder adds its inputs if no carry goes in and its table is that of the sum, and subtracts the
second one if a carry goes in and its table is the complement of that. Either result is cut to the
width. -/
theorem interpret_sum {a : AdderProgram} (hunit : p.carry = some unit)
    (he : e.WellFormed ∧ e.holes = []) (hf : f.WellFormed ∧ f.holes = [])
    (hgiven : ∀ g, given = some (.program g) → Issued g)
    (h : bitwiseWithCarry p [.expr e, .expr f] count width given next = .ok ((out, a), last))
    (hwidth : width.number? = some (w : Int))
    (hx : e.interpret env ∅ Primitive.standard = .ok x)
    (hy : f.interpret env ∅ Primitive.standard = .ok y) (covers : σ.Covers out.holes)
    (zeros : ExtendsWithZeros w σ.truth out) :
    (σ.truth a.chain.carryIn = false → σ.Programs a.bitwise (ofPair unit.style.sumBit) →
      out.interpret env σ Primitive.standard = .ok ((x + y) % twoPow w)) ∧
    (σ.truth a.chain.carryIn = true →
      σ.Programs a.bitwise (ofPair fun u v => !unit.style.sumBit u v) →
        out.interpret env σ Primitive.standard = .ok (((x : Int) - y) % twoPow w).toNat) := by
  obtain ⟨es, w', program, hcheck, hhanded, -, -, hrun⟩ := bitwiseWithCarry_eq_ok.mp h
  obtain ⟨⟨rfl, rfl, hw, hfits⟩, xs, ys, ⟨hxs, hlx, hxle⟩, ⟨hys, hly, hyle⟩, rfl, rfl⟩ :=
    words_of_checkInputs he hf hcheck hwidth hx hy σ.truth
  have hcomplete := complete_of_issued hgiven hhanded
  obtain ⟨unit', wide, hspec⟩ := adderOf_spec hw hfits hcomplete hrun
  obtain rfl : unit = unit' := Option.some.inj (hunit.symm.trans hspec.unit_eq)
  have heval := hspec.eval env σ.truth xs _ hxs hlx (eval_extensions_of_zeros hspec.extensions
    hspec.uses_wide zeros (.cons ⟨hxs, hxle⟩ (.cons ⟨hys, hyle⟩ .nil)))
  have hlx' := length_zeroExtend hxle
  have hly' := length_zeroExtend hyle
  have hruns (g : Bool → Bool → Bool) (hg : σ.Programs a.bitwise (ofPair g)) :
      out.interpret env σ Primitive.standard = .ok (Word.toNat
        (unit.style.chain (σ.truth a.chain.carryIn)
          (((zeroExtend w xs).zip (zeroExtend w ys)).map fun q => (q.1, g q.1 q.2))).1) := by
    have hread := hg.read_pair hspec.complete.bitwise (by simpa using hspec.inputs_eq)
    rw [Sketched.interpret hspec.sketched (isWord_of_shape hspec.shape) (by simp [he.2, hf.2])
      covers heval]
    simp only [List.map_cons, List.map_nil, hread]
    rw [zip_map_range_getD g hlx' hly']
  obtain ⟨hfst, hsnd, hlen⟩ := unzip_zeroExtend hxle hyle
  constructor
  · intro hcarry hprograms
    rw [hruns _ hprograms, hcarry, CarryStyle.toNat_chain_sum, hfst, hsnd, hlen]
  · intro hcarry hprograms
    rw [hruns _ hprograms, hcarry, CarryStyle.toNat_chain_difference, hfst, hsnd, hlen]

/-- One bit and three, in blocks of two: one and seven, and one less seven. -/
theorem interpret_sum_zero : ∃ out a last σ σ',
    bitwiseWithCarry .latticeEcp5 [.expr (input 0 "a" 1), .expr (input 1 "b" 3)] (.int 2) (.int 3)
      none 2 = .ok ((out, a), last) ∧
    out.interpret [("a", 1), ("b", 7)] σ Primitive.standard = .ok 0 ∧
    out.interpret [("a", 1), ("b", 7)] σ' Primitive.standard = .ok 2 := by
  have hinputs : ∀ e ∈ [input 0 "a" 1, input 1 "b" 3], e.WellFormed ∧ e.holes = [] := by
    simp [wellFormed_input, holes_input]
  let table : List Hole := (List.range' 21 4).map (⟨·, 1, none⟩)
  let carryIn : Hole := ⟨41, 1, none⟩
  obtain ⟨out, last, h⟩ : ∃ out last,
      bitwiseWithCarry .latticeEcp5 [.expr (input 0 "a" 1), .expr (input 1 "b" 3)] (.int 2) (.int 3)
        none 2 = .ok ((out, ⟨⟨2, table⟩, ⟨⟨3⟩, carryIn⟩⟩), last) :=
    exists_of_program (by decide +kernel)
  let settled (ones : List Hole) :=
    Assignment.ofTruth (table ++ [carryIn] ++ out.holes) ones.contains
  have covers (ones : List Hole) : (settled ones).Covers out.holes :=
    Assignment.covers_ofTruth (List.subset_append_right _ _)
  have zeros {ones : List Hole} (hones : ones ⊆ table ++ [carryIn]) :
      ExtendsWithZeros 3 (settled ones).truth out :=
    extendsWithZeros_of_sketch (t := .bitwiseWithCarry)
      (q := ⟨_, .int 2, .int 3, none, ⟨true, false, .null⟩⟩)
      (show _ = [input 0 "a" 1, input 1 "b" 3].map Operand.expr from rfl) rfl hinputs
      (bind_of_ok h) hones
  have hcarry (ones : List Hole) : (settled ones).truth carryIn = ones.contains carryIn :=
    Assignment.truth_ofTruth (by simp)
  have hx : (input 0 "a" 1).interpret [("a", 1), ("b", 7)] ∅ Primitive.standard = .ok 1 :=
    interpret_input rfl (by decide)
  have hy : (input 1 "b" 3).interpret [("a", 1), ("b", 7)] ∅ Primitive.standard = .ok 7 :=
    interpret_input rfl (by decide)
  have hsum := (interpret_sum rfl (hinputs _ (by simp)) (hinputs _ (by simp)) (by simp) h rfl hx hy
    (covers ([23, 24].map (⟨·, 1, none⟩))) (zeros (by decide))).1 ((hcarry _).trans (by decide))
    (Assignment.programs_ofTruth (by decide) (by simp) (by decide))
  have hdifference := (interpret_sum rfl (hinputs _ (by simp)) (hinputs _ (by simp)) (by simp) h rfl
    hx hy (covers ([21, 22, 41].map (⟨·, 1, none⟩))) (zeros (by decide))).2
    ((hcarry _).trans (by decide)) (Assignment.programs_ofTruth (by decide) (by simp) (by decide))
  exact ⟨out, _, last, _, _, h, hsum, hdifference⟩

/-- A comparison tells whether its inputs are equal if a carry goes in, its data are zero and its
selections tell where the bits are equal. With no carry in, and the tables of its style for that, it
tells whether the first input is less than the second one. -/
theorem interpret_comparison {c : ComparisonProgram} (hunit : p.carry = some unit)
    (he : e.WellFormed ∧ e.holes = []) (hf : f.WellFormed ∧ f.holes = [])
    (hgiven : ∀ g, given = some (.program g) → Issued g)
    (h : comparison p [.expr e, .expr f] count width given next = .ok ((out, c), last))
    (hwidth : width.number? = some (w : Int))
    (hx : e.interpret env ∅ Primitive.standard = .ok x)
    (hy : f.interpret env ∅ Primitive.standard = .ok y) (covers : σ.Covers out.holes)
    (zeros : ExtendsWithZeros w σ.truth out) :
    (σ.truth c.chain.carryIn = true → σ.Programs c.di (ofPair fun _ _ => false) →
      σ.Programs c.s (ofPair fun u v => !(u ^^ v)) →
        out.interpret env σ Primitive.standard = .ok (decide (x = y)).toNat) ∧
    (σ.truth c.chain.carryIn = false → σ.Programs c.di (ofPair unit.style.lessData) →
      σ.Programs c.s (ofPair unit.style.lessBit) →
        out.interpret env σ Primitive.standard = .ok (decide (x < y)).toNat) := by
  obtain ⟨es, w', program, hcheck, hhanded, -, -, hrun⟩ := comparison_eq_ok.mp h
  obtain ⟨⟨rfl, rfl, hw, hfits⟩, xs, ys, ⟨hxs, hlx, hxle⟩, ⟨hys, hly, hyle⟩, rfl, rfl⟩ :=
    words_of_checkInputs he hf hcheck hwidth hx hy σ.truth
  have hcomplete := complete_of_issued hgiven hhanded
  obtain ⟨unit', wide, wide', hspec⟩ := comparisonOf_spec hw hfits hcomplete hrun
  obtain rfl : unit = unit' := Option.some.inj (hunit.symm.trans hspec.unit_eq)
  have hwords : List.Forall₂ (fun z b => eval (.settled env σ.truth) z = .ok (.word b) ∧
      b.length ≤ w) [e, f] [xs, ys] := .cons ⟨hxs, hxle⟩ (.cons ⟨hys, hyle⟩ .nil)
  have heval := hspec.eval env σ.truth _ _
    (eval_extensions_of_zeros hspec.extensions
      (fun z hz => hspec.uses_wide z (by simp [hz])) zeros hwords)
    (eval_extensions_of_zeros hspec.extensions'
      (fun z hz => hspec.uses_wide z (by simp [hz])) zeros hwords)
  have hlx' := length_zeroExtend hxle
  have hly' := length_zeroExtend hyle
  have hruns (g k : Bool → Bool → Bool) (hg : σ.Programs c.di (ofPair g))
      (hk : σ.Programs c.s (ofPair k)) : out.interpret env σ Primitive.standard =
        .ok (unit.style.chain (σ.truth c.chain.carryIn)
          (((zeroExtend w xs).zip (zeroExtend w ys)).map fun q => (g q.1 q.2, k q.1 q.2))).2.toNat := by
    have hdata := hg.read_pair hspec.complete.di hspec.inputs_eq.1
    have hbits := hk.read_pair hspec.complete.s hspec.inputs_eq.2
    rw [Sketched.interpret hspec.sketched (isWord_of_shape hspec.shape) (by simp [he.2, hf.2])
      covers heval]
    simp only [List.map_cons, List.map_nil, hdata, hbits]
    rw [map_range_getD g hlx' hly', map_range_getD k hlx' hly', List.zip_map']
    simp
  obtain ⟨hfst, hsnd, -⟩ := unzip_zeroExtend hxle hyle
  constructor
  · intro hcarry hdi hs
    rw [hruns _ _ hdi hs, hcarry, CarryStyle.chain_equal, hfst, hsnd]
  · intro hcarry hdi hs
    rw [hruns _ _ hdi hs, hcarry, CarryStyle.chain_less, hfst, hsnd]

/-- One bit and three, in blocks of two that pass carries on: one equals one, and is less than
three. -/
theorem interpret_comparison_one : ∃ out c last σ σ',
    comparison { Platform.latticeEcp5 with carry := some { style := .muxXor, chunk := .plain 2 } }
      [.expr (input 0 "a" 1), .expr (input 1 "b" 3)] (.int 2) (.int 3) none 2 =
        .ok ((out, c), last) ∧
    out.interpret [("a", 1), ("b", 1)] σ Primitive.standard = .ok 1 ∧
    out.interpret [("a", 1), ("b", 3)] σ' Primitive.standard = .ok 1 := by
  have hinputs : ∀ e ∈ [input 0 "a" 1, input 1 "b" 3], e.WellFormed ∧ e.holes = [] := by
    simp [wellFormed_input, holes_input]
  let di : List Hole := (List.range' 21 4).map (⟨·, 1, none⟩)
  let s : List Hole := (List.range' 59 4).map (⟨·, 1, none⟩)
  let carryIn : Hole := ⟨78, 1, none⟩
  obtain ⟨out, last, h⟩ : ∃ out last,
      comparison { Platform.latticeEcp5 with carry := some { style := .muxXor, chunk := .plain 2 } }
        [.expr (input 0 "a" 1), .expr (input 1 "b" 3)] (.int 2) (.int 3) none 2 =
          .ok ((out, ⟨⟨2, di⟩, ⟨2, s⟩, ⟨⟨3⟩, carryIn⟩⟩), last) := by
    refine exists_of_program ?_
    decide +kernel
  let settled (ones : List Hole) :=
    Assignment.ofTruth (di ++ s ++ [carryIn] ++ out.holes) ones.contains
  have covers (ones : List Hole) : (settled ones).Covers out.holes :=
    Assignment.covers_ofTruth (List.subset_append_right _ _)
  have zeros {ones : List Hole} (hones : ones ⊆ di ++ s ++ [carryIn]) :
      ExtendsWithZeros 3 (settled ones).truth out :=
    extendsWithZeros_of_sketch (t := .comparison)
      (q := ⟨_, .int 2, .int 3, none, ⟨true, false, .null⟩⟩)
      (show _ = [input 0 "a" 1, input 1 "b" 3].map Operand.expr from rfl) rfl hinputs
      (bind_of_ok h) hones
  have hcarry (ones : List Hole) : (settled ones).truth carryIn = ones.contains carryIn :=
    Assignment.truth_ofTruth (by simp)
  have hx {b : Int} : (input 0 "a" 1).interpret [("a", 1), ("b", b)] ∅ Primitive.standard = .ok 1 :=
    interpret_input rfl (by decide)
  have hone : (input 1 "b" 3).interpret [("a", 1), ("b", 1)] ∅ Primitive.standard = .ok 1 :=
    interpret_input rfl (by decide)
  have hthree : (input 1 "b" 3).interpret [("a", 1), ("b", 3)] ∅ Primitive.standard = .ok 3 :=
    interpret_input rfl (by decide)
  have hequal := (interpret_comparison rfl (hinputs _ (by simp)) (hinputs _ (by simp)) (by simp) h
    rfl hx hone (covers ([59, 62, 78].map (⟨·, 1, none⟩))) (zeros (by decide))).1
    ((hcarry _).trans (by decide)) (Assignment.programs_ofTruth (by decide) (by simp) (by decide))
    (Assignment.programs_ofTruth (by decide) (by simp) (by decide))
  have hless := (interpret_comparison rfl (hinputs _ (by simp)) (hinputs _ (by simp)) (by simp) h
    rfl hx hthree (covers ([23, 24, 59, 62].map (⟨·, 1, none⟩))) (zeros (by decide))).2
    ((hcarry _).trans (by decide)) (Assignment.programs_ofTruth (by decide) (by simp) (by decide))
    (Assignment.programs_ofTruth (by decide) (by simp) (by decide))
  exact ⟨out, _, last, _, _, h, hequal, hless⟩

end Template
end CircuitSketch
