import CircuitSketch.Proofs.Evaluation.Operator
import CircuitSketch.Proofs.Interface.Programmed
import CircuitSketch.Proofs.Template.Sharing

/-!
# What programmed sketches compute

A sketch of closed inputs has a value under every assignment that covers its holes. Here the value
is said for programs that make the sketch a shift or a product, whatever the selectors settle that
the program leaves open.
-/
namespace CircuitSketch

open CircuitSketch.Expr Build

/-- An operator between words that stand for numbers yields the operator's number. -/
theorem Expr.interpret_binary {op : BinaryOp} {t w x y : Nat} {a b : Expr} {env : Valuation}
    {σ : Assignment} {modules : ModuleTable} (ha : a.WellFormed) (hb : b.WellFormed)
    (hwa : a.width = w) (hwb : b.width = w) (keeps : op.isComparison = false)
    (hx : a.interpret env σ modules = .ok x) (hy : b.interpret env σ modules = .ok y) :
    (node t (.binary op) (.word w) [a, b]).interpret env σ modules = .ok (op.apply w x y) := by
  obtain ⟨xs, hxs, hlx, rfl⟩ := exists_bits_of_interpret ha hx
  obtain ⟨ys, hys, hly, rfl⟩ := exists_bits_of_interpret hb hy
  have hltx := Word.toNat_lt xs
  have hlty := Word.toNat_lt ys
  rw [hlx, hwa] at hltx
  rw [hly, hwb] at hlty
  have hlt : op.apply w (Word.toNat xs) (Word.toNat ys) < twoPow w := by
    rw [op.apply_eq_denote hltx hlty]
    simpa [keeps] using op.denote_lt w (Word.toNat xs) (Word.toNat ys)
  have heval : eval (.concrete env σ modules) (node t (.binary op) (.word w) [a, b]) =
      .ok (.word (Word.ofInt w (op.apply w (Word.toNat xs) (Word.toNat ys)))) := by
    rw [eval_node_of_args (.cons hxs (.cons hys .nil))]
    simp [Op.eval, operandNumber, constants?_bool, bind, Except.bind, keeps, hlx, hwa, wordOf,
      constants_bool]
  rw [interpret_of_eval rfl heval, Word.toNat_ofInt_natCast, Nat.mod_eq_of_lt hlt]

namespace Template

variable {p : Platform} {a b out : Expr} {es : List Expr} {count width : Datum}
  {given : Option GivenProgram} {next last w x y : Nat} {env : Valuation} {σ : Assignment}

/-- A sketch of closed inputs is interpreted as the word that the truth values of its holes give. -/
theorem Sketched.interpret {handed program : List Hole} {bits : List Bool}
    (h : Sketched es handed program next last [out]) (word : out.isWord)
    (closed : ∀ e ∈ es, e.holes = []) (covers : σ.Covers out.holes)
    (heval : eval (.settled env σ.truth) out = .ok (.word bits)) :
    out.interpret env σ Primitive.standard = .ok (Word.toNat bits) := by
  refine interpret_of_eval_settled word (fun k hk => ?_) covers heval
  rcases (h.grown out (by simp)).width_of_mem_holes (mem_holes.mp hk) with ⟨e, he, hke⟩ | hone
  · have hmem := mem_holes.mpr hke
    rw [closed e he] at hmem
    cases hmem
  · exact hone

/-- A bit of a number of `width` bits that is extended with zeros, or with copies of its top bit. -/
def extendedBit (copies : Bool) (width n i : Nat) : Bool :=
  if i < width then n.testBit i else copies && n.testBit (width - 1)

theorem getD_widened_toNat {copies : Bool} {bits : List Bool} (pos : 0 < bits.length) {i : Nat}
    (hi : i < w) : (widened w copies bits).getD i false =
      extendedBit copies bits.length (Word.toNat bits) i := by
  rw [getD_widened pos hi, extendedBit, Word.testBit_toNat, Word.testBit_toNat]

/-- Inputs that are extended one after the other are extended at tags of their own. -/
theorem exists_extension {lo hi : Nat} {wide : List Expr}
    (h : List.Forall₂ (IsExtension w lo hi) es wide) :
    ∃ ts, List.Forall₂ (fun t e => extension t w e ∈ wide) ts es ∧
      wide = List.zipWith (extension · w ·) ts es := by
  induction h with
  | nil => exact ⟨[], .nil, rfl⟩
  | cons hy _ ih =>
    obtain ⟨t, -, -, rfl⟩ := hy
    obtain ⟨ts, hmem, rfl⟩ := ih
    exact ⟨t :: ts, .cons (by simp) (hmem.imp fun _ _ h => List.mem_cons_of_mem _ h), rfl⟩

/-- The words that extended inputs stand for, and the bits of these words at one position. -/
theorem exists_widened {τ : Hole → Bool} {value : Expr → Nat} {ts : List Nat}
    (hes : ∀ e ∈ es, Fits w e ∧ ∃ bits, eval (.settled env τ) e = .ok (.word bits) ∧
      bits.length = e.width ∧ Word.toNat bits = value e) (hts : ts.length = es.length) :
    ∃ words, List.Forall₂ (fun y b => eval (.settled env τ) y = .ok (.word b) ∧ b.length = w)
        (List.zipWith (extension · w ·) ts es) words ∧
      ∀ i < w, words.map (fun b => b.getD i false) = List.zipWith
        (fun t e => extendedBit (τ (extensionSelector t)) e.width (value e) i) ts es := by
  induction es generalizing ts with
  | nil => exact ⟨[], by simp, by simp⟩
  | cons e es ih =>
    obtain ⟨t, ts, rfl⟩ := List.exists_cons_of_length_eq_add_one hts
    obtain ⟨hfits, bits, hbits, hlen, hvalue⟩ := hes e (by simp)
    obtain ⟨words, hwords, hrows⟩ :=
      ih (fun x hx => hes x (by simp [hx])) (by simpa using hts)
    have hpos : 0 < bits.length := hlen ▸ hfits.pos
    have hle : bits.length ≤ w := hlen ▸ hfits.le
    refine ⟨_ :: words, .cons ⟨eval_extension hbits, length_widened hpos hle⟩ hwords,
      fun i hi => ?_⟩
    rw [List.map_cons, hrows i hi, getD_widened_toNat hpos hi, hlen, hvalue, List.zipWith_cons_cons]

/-- With its table programmed as a function, a bitwise sketch applies this function to the bits of
its inputs at each position. A selector of its own decides whether an input that is too short is
extended with zeros or with copies of its top bit, and no other selector matters. -/
theorem interpret_bitwise {l : LutProgram} {value : Expr → Nat}
    (hwidth : width.number? = some (w : Int))
    (hes : ∀ e ∈ es, e.WellFormed ∧ e.holes = [] ∧
      e.interpret env ∅ Primitive.standard = .ok (value e))
    (hgiven : ∀ g, given = some (.program g) → Issued g)
    (h : bitwise p (es.map .expr) count width given next = .ok ((out, l), last)) :
    ∃ ts : List Nat, List.Forall₂ (fun t e => extension t w e ∈ out.preorder) ts es ∧
      ∀ (σ : Assignment) (f : List Bool → Bool), σ.Covers out.holes → σ.Programs l f →
        ∃ n, out.interpret env σ Primitive.standard = .ok n ∧ n < twoPow w ∧
          ∀ i < w, n.testBit i = f (List.zipWith
            (fun t e => extendedBit (σ.truth (extensionSelector t)) e.width (value e) i) ts es) := by
  obtain ⟨es', w', program, hcheck, hhanded, -, -, hrun⟩ := bitwise_eq_ok.mp h
  obtain rfl := eq_of_checkInputs hcheck
  obtain rfl := eq_width_of_checkInputs hwidth hcheck
  obtain ⟨hw, hfits⟩ := fits_of_checkInputs (fun e he => (hes e he).1) hcheck
  have hcomplete := complete_of_issued hgiven hhanded
  obtain ⟨wide, hspec⟩ := bitwiseOf_spec hw hfits hcomplete hrun
  obtain ⟨ts, hmem, rfl⟩ := exists_extension hspec.extensions
  have hts := hmem.length_eq
  refine ⟨ts, hmem.imp fun _ _ h => hspec.uses_wide _ h, fun σ f covers programs => ?_⟩
  have heval : ∀ e ∈ es', Fits w e ∧ ∃ bits, eval (.settled env σ.truth) e = .ok (.word bits) ∧
      bits.length = e.width ∧ Word.toNat bits = value e := fun e he =>
    ⟨hfits e he, eval_settled_of_interpret (hes e he).1 (hes e he).2.1 (hes e he).2.2 σ.truth⟩
  obtain ⟨words, hwords, hrows⟩ := exists_widened heval hts
  have hbits := hspec.eval env σ.truth words hwords
  have hcomputes := programs.computes hspec.complete
  refine ⟨_, Sketched.interpret hspec.sketched (isWord_of_shape hspec.shape)
    (fun e he => (hes e he).2.1) covers hbits, ?_, fun i hi => ?_⟩
  · refine (Word.toNat_lt _).trans_le ?_
    simp
  · rw [Word.testBit_toNat, List.getD_eq_getElem?_getD, List.getElem?_map,
      List.getElem?_range hi, Option.map_some, Option.getD_some, hrows i hi, hcomputes]
    simp [hspec.inputs_eq, hts]

/-- One bit and two, with a table for exclusive or. The shorter input is extended with its top bit,
since every selector is one. -/
theorem interpret_bitwise_xor : ∃ out l last σ,
    bitwise .latticeEcp5 [.expr (input 0 "a" 1), .expr (input 1 "b" 2)] (.int 2) (.int 2) none 2 =
      .ok ((out, l), last) ∧
    out.interpret [("a", 1), ("b", 1)] σ Primitive.standard = .ok 2 := by
  have hinputs : ∀ e ∈ [input 0 "a" 1, input 1 "b" 2], e.WellFormed ∧ e.holes = [] := by
    simp [wellFormed_input, holes_input]
  let table : List Hole := (List.range' 19 4).map (⟨·, 1, none⟩)
  let zeros : List Hole := [19, 22].map (⟨·, 1, none⟩)
  obtain ⟨out, last, h⟩ : ∃ out last,
      bitwise .latticeEcp5 [.expr (input 0 "a" 1), .expr (input 1 "b" 2)] (.int 2) (.int 2) none 2 =
        .ok ((out, ⟨2, table⟩), last) := exists_of_program (by decide +kernel)
  let σ := Assignment.ofTruth (table ++ out.holes) fun k => !zeros.contains k
  have covers : σ.Covers out.holes := Assignment.covers_ofTruth (List.subset_append_right _ _)
  have programs : σ.Programs ⟨2, table⟩ fun bits => bits.getD 0 false != bits.getD 1 false :=
    Assignment.programs_ofTruth (by decide) (List.subset_append_left _ _) (by decide)
  have hselect : ∀ t e, extension t 2 e ∈ out.preorder → σ.truth (extensionSelector t) = true := by
    intro t e hmem
    have hs : extensionSelector t ∈ out.selectors := mem_selectors.mpr ⟨_, _, _, _, hmem⟩
    have hnot : extensionSelector t ∉ table := fun hin =>
      not_mem_selectors_of_sketch (t := .bitwise)
        (q := ⟨_, .int 2, .int 2, none, ⟨true, false, .null⟩⟩)
        (show _ = [input 0 "a" 1, input 1 "b" 2].map Operand.expr from rfl) rfl hinputs (bind_of_ok h)
        hin hs
    have hzeros : extensionSelector t ∉ zeros := fun hin =>
      hnot ((by decide : ∀ j ∈ zeros, j ∈ table) _ hin)
    rw [show σ.truth _ = !zeros.contains _ from Assignment.truth_ofTruth
      (List.mem_append_right _ (mem_holes_of_mem_selectors hs))]
    simp [hzeros]
  have ha : (input 0 "a" 1).interpret [("a", 1), ("b", 1)] ∅ Primitive.standard = .ok 1 :=
    interpret_input rfl (by decide)
  have hb : (input 1 "b" 2).interpret [("a", 1), ("b", 1)] ∅ Primitive.standard = .ok 1 :=
    interpret_input rfl (by decide)
  have hvalues : ∀ e ∈ [input 0 "a" 1, input 1 "b" 2], e.WellFormed ∧ e.holes = [] ∧
      e.interpret [("a", 1), ("b", 1)] ∅ Primitive.standard = .ok 1 := by
    intro e he
    refine ⟨(hinputs e he).1, (hinputs e he).2, ?_⟩
    rcases List.mem_pair.mp he with rfl | rfl
    · exact ha
    · exact hb
  obtain ⟨ts, hts, hruns⟩ := interpret_bitwise rfl hvalues (by simp) h
  obtain ⟨t, us, hmem, hus, rfl⟩ := List.forall₂_cons_right_iff.mp hts
  obtain ⟨u, vs, -, hvs, rfl⟩ := List.forall₂_cons_right_iff.mp hus
  obtain rfl := List.forall₂_nil_right_iff.mp hvs
  obtain ⟨n, hn, hlt, hbits⟩ := hruns σ _ covers programs
  have hlow : n.testBit 0 = false := by
    rw [hbits 0 (by decide)]
    simp [extendedBit, width, Expr.shape, Shape.width?, input]
  have hhigh : n.testBit 1 = true := by
    rw [hbits 1 (by decide)]
    simp [extendedBit, hselect t _ hmem, width, Expr.shape, Shape.width?, input,
      show Nat.testBit 1 1 = false from rfl]
  obtain rfl : n = 2 := by
    rw [Nat.testBit_zero] at hlow
    rw [Nat.testBit_succ, Nat.testBit_zero] at hhigh
    simp only [decide_eq_false_iff_not, decide_eq_true_eq] at hlow hhigh
    change n < 4 at hlt
    omega
  exact ⟨out, _, last, σ, h, hn⟩

/-- With its multiplexers programmed as such, with a reduction that tells whether any of its bits is
set, and with its choices settled for one direction and one fill, a shift yields the number that the
operator of this direction and fill yields, however far it goes. -/
theorem interpret_shift {amount : Expr} {logarithmic : Bool} {fill : Datum} {f : Fill}
    {s : ShiftProgram} {op : BinaryOp} {signed down : Bool}
    (ha : a.WellFormed ∧ a.holes = []) (hamount : amount.WellFormed ∧ amount.holes = [])
    (hgiven : ∀ g, given = some (.program g) → Issued g)
    (h : shift p [.expr a, .expr amount] count width given logarithmic fill next =
      .ok ((out, s), last))
    (hx : a.interpret env ∅ Primitive.standard = .ok x)
    (hy : amount.interpret env ∅ Primitive.standard = .ok y)
    (covers : σ.Covers out.holes) (mux : Multiplexes σ.truth (some s.mux))
    (saturate : Saturates σ.truth s.saturate) (hfill : Fill.ofDatum fill = .ok f)
    (hop : Word.shiftMode? op = some (signed, down)) (admits : f.admits signed)
    (steered : Steered f signed down σ.truth out) :
    out.interpret env σ Primitive.standard = .ok (op.apply a.width x y) ∧
      ∀ t, (node t (.binary op) (.word a.width) [a, amount]).interpret env ∅ Primitive.standard =
        .ok (op.apply a.width x y) := by
  obtain ⟨a', amount', w, program, f', s', hcheck, hhanded, hfill', hrun, rfl⟩ := shift_eq_ok.mp h
  obtain ⟨rfl, rfl⟩ : a' = a ∧ amount' = amount := by
    simpa using eq_of_checkInputs
      (show checkInputs _ ([a, amount].map .expr) count width = _ from hcheck)
  obtain rfl : f' = f := Except.ok.inj (hfill'.symm.trans hfill)
  have hshape := shape_of_checkInputs rfl hcheck
  have hwf : ∀ e ∈ [a', amount'], e.WellFormed := by simp [ha.1, hamount.1]
  have hclosed : ∀ e ∈ [a', amount'], e.holes = [] := by simp [ha.2, hamount.2]
  have hwa := width_of_shape (hshape a' (by simp))
  have hwb := width_of_shape (hshape amount' (by simp))
  have hcomplete := complete_of_issued hgiven hhanded
  have hspec := shiftOf_spec (fits_of_checkInputs hwf hcheck).1 (hshape a' (by simp))
    (hshape amount' (by simp)) hcomplete hrun
  obtain ⟨xs, hxs, hlx, rfl⟩ := eval_settled_of_interpret ha.1 ha.2 hx σ.truth
  obtain ⟨ys, hys, hly, rfl⟩ := eval_settled_of_interpret hamount.1 hamount.2 hy σ.truth
  rw [hwa] at hlx
  rw [hwb] at hly
  have heval := hspec.eval env σ.truth signed down xs ys admits steered mux saturate hxs hlx hys hly
  have hkeeps : op.isComparison = false := by
    cases op <;> first | rfl | cases hop
  refine ⟨?_, fun t => interpret_binary ha.1 hamount.1 rfl (hwb.trans hwa.symm) hkeeps hx hy⟩
  rw [Sketched.interpret hspec.sketched (isWord_of_shape hspec.shape) hclosed covers heval, hwa,
    ← hlx, Word.toNat_moved hop]
  rw [hlx, ← hly]
  exact Word.toNat_lt ys

/-- A shift of four bits to the right by nine, with the sign moving in. Two bits of the amount
remain for the last of the three stages, and a tree with a pad tells whether any of them is set. -/
theorem interpret_shift_ashr : ∃ out s last σ,
    shift .latticeEcp5 [.expr (input 0 "a" 4), .expr (input 1 "n" 4)] (.int 2) (.int 4) none true
      .null 2 = .ok ((out, s), last) ∧
    s.saturate.isSome ∧ out.interpret [("a", 10), ("n", 9)] σ Primitive.standard = .ok 15 := by
  have hinputs : ∀ e ∈ [input 0 "a" 4, input 1 "n" 4], e.WellFormed ∧ e.holes = [] := by
    simp [wellFormed_input, holes_input]
  let table : List Hole := (List.range' 21 8).map (⟨·, 1, none⟩)
  let pad : Hole := ⟨80, 1, none⟩
  let pooling : List Hole := (List.range' 81 16).map (⟨·, 1, none⟩)
  let tree : ReductionProgram := ⟨[⟨[⟨4, pooling⟩], some pad⟩]⟩
  let zeros : List Hole := [21, 23, 25, 26, 80, 81].map (⟨·, 1, none⟩)
  obtain ⟨⟨⟨out, mux, saturate, stages⟩, last⟩, h, hprogram⟩ : ∃ r,
      shift .latticeEcp5 [.expr (input 0 "a" 4), .expr (input 1 "n" 4)] (.int 2) (.int 4) none true
        .null 2 = .ok r ∧ (r.1.2.mux, r.1.2.saturate) = (⟨2, some ⟨3, table⟩⟩, some tree) :=
    exists_of_part (by decide +kernel)
  obtain ⟨rfl, rfl⟩ := Prod.mk.inj hprogram
  let σ := Assignment.ofTruth (table ++ (pooling ++ [pad]) ++ out.holes) fun k => !zeros.contains k
  have htruth : ∀ k ∈ table ++ (pooling ++ [pad]), σ.truth k = !zeros.contains k := fun k hk =>
    Assignment.truth_ofTruth (List.mem_append_left _ hk)
  have covers : σ.Covers out.holes := Assignment.covers_ofTruth (List.subset_append_right _ _)
  have hmux : Multiplexes σ.truth (some ⟨2, some ⟨3, table⟩⟩) := by
    intro m hm l hl x y z
    cases hm
    cases hl
    rw [LutProgram.read, List.map_congr_left fun k hk => htruth k (List.mem_append_left _ hk)]
    revert x y z
    decide
  have hsaturate : Saturates σ.truth (some tree) := by
    intro s hs r hr
    cases hs
    obtain rfl := List.mem_singleton.mp hr
    refine ⟨fun l hl => ?_, fun k hk => ?_⟩
    · obtain rfl := List.mem_singleton.mp hl
      have programs : σ.Programs ⟨4, pooling⟩ fun bits => bits.foldr or false :=
        Assignment.programs_ofTruth (by decide)
          (fun k hk => List.mem_append_left _ (List.mem_append_right _ (List.mem_append_left _ hk)))
          (by decide)
      exact programs.computes ⟨by decide, by decide, by decide⟩
    · cases hk
      exact (htruth pad (by simp)).trans (by decide)
  have hsteered : Steered .either true true σ.truth out := by
    intro t w a b k hk
    have hselect : k ∈ out.selectors := mem_selectors.mpr ⟨t, w, a, b, hk⟩
    have hnot : k ∉ table ++ (pooling ++ [pad]) := fun hmem =>
      not_mem_selectors_of_sketch (t := .shift)
        (q := ⟨_, .int 2, .int 4, none, ⟨true, true, .null⟩⟩)
        (show _ = [input 0 "a" 4, input 1 "n" 4].map Operand.expr from rfl) rfl hinputs (bind_of_ok h)
        hmem hselect
    have hzeros : k ∉ zeros := fun hmem => hnot
      ((by decide : ∀ j ∈ zeros, j ∈ table ++ (pooling ++ [pad])) k hmem)
    rw [show σ.truth k = !zeros.contains k from Assignment.truth_ofTruth
      (List.mem_append_right _ (mem_holes_of_mem_selectors hselect))]
    simp [hzeros]
  have hx : (input 0 "a" 4).interpret [("a", 10), ("n", 9)] ∅ Primitive.standard = .ok 10 :=
    interpret_input rfl (by decide)
  have hy : (input 1 "n" 4).interpret [("a", 10), ("n", 9)] ∅ Primitive.standard = .ok 9 :=
    interpret_input rfl (by decide)
  have hyields := interpret_shift (hinputs _ (by simp)) (hinputs _ (by simp)) (by simp) h hx hy
    covers hmux hsaturate rfl (show Word.shiftMode? .ashr = _ from rfl) rfl hsteered
  exact ⟨out, _, last, σ, h, rfl, hyields.1⟩

/-- With its products programmed as conjunctions and its sum as a sum, a multiplication yields the
product of its inputs, cut to their width. -/
theorem interpret_product {m : ProductProgram} (ha : a.WellFormed ∧ a.holes = [])
    (hb : b.WellFormed ∧ b.holes = []) (hgiven : ∀ g, given = some (.program g) → Issued g)
    (h : product p [.expr a, .expr b] count width given next = .ok ((out, m), last))
    (hx : a.interpret env ∅ Primitive.standard = .ok x)
    (hy : b.interpret env ∅ Primitive.standard = .ok y) (covers : σ.Covers out.holes)
    (products : ∀ u v, m.products.read σ.truth [u, v] = (u && v))
    (sum : ∀ s ∈ m.sum, Adds p σ.truth s) :
    out.interpret env σ Primitive.standard = .ok (x * y % twoPow a.width) := by
  obtain ⟨a', b', w, program, hcheck, hhanded, hrun⟩ := product_eq_ok.mp h
  obtain ⟨rfl, rfl⟩ : a' = a ∧ b' = b := by
    simpa using eq_of_checkInputs
      (show checkInputs _ ([a, b].map .expr) count width = _ from hcheck)
  have hshape := shape_of_checkInputs rfl hcheck
  have hwf : ∀ e ∈ [a', b'], e.WellFormed := by simp [ha.1, hb.1]
  have hclosed : ∀ e ∈ [a', b'], e.holes = [] := by simp [ha.2, hb.2]
  have hwa := width_of_shape (hshape a' (by simp))
  have hwb := width_of_shape (hshape b' (by simp))
  have hcomplete := complete_of_issued hgiven hhanded
  have hspec := productOf_spec (fits_of_checkInputs hwf hcheck).1 (hshape a' (by simp))
    (hshape b' (by simp)) hcomplete hrun
  obtain ⟨xs, hxs, hlx, rfl⟩ := eval_settled_of_interpret ha.1 ha.2 hx σ.truth
  obtain ⟨ys, hys, hly, rfl⟩ := eval_settled_of_interpret hb.1 hb.2 hy σ.truth
  obtain ⟨bits, heval, -, hbits⟩ := hspec.eval env σ.truth xs ys products (fun _ => sum) hxs
    (hlx.trans hwa) hys (hly.trans hwb)
  rw [Sketched.interpret hspec.sketched (isWord_of_shape hspec.shape) hclosed covers heval, hbits,
    hwa]

/-- Three times three cut to two bits. The products and the sum have tables of their own. -/
theorem interpret_product_cut : ∃ out m last σ,
    product .latticeEcp5 [.expr (input 0 "a" 2), .expr (input 1 "b" 2)] (.int 2) (.int 2) none 2 =
      .ok ((out, m), last) ∧
    out.interpret [("a", 3), ("b", 3)] σ Primitive.standard = .ok 1 := by
  have hinputs : ∀ e ∈ [input 0 "a" 2, input 1 "b" 2], e.WellFormed ∧ e.holes = [] := by
    simp [wellFormed_input, holes_input]
  let products : List Hole := (List.range' 5 4).map (⟨·, 1, none⟩)
  let sums : List Hole := (List.range' 44 4).map (⟨·, 1, none⟩)
  let ones : List Hole := [8, 46, 47].map (⟨·, 1, none⟩)
  obtain ⟨out, last, h⟩ : ∃ out last,
      product .latticeEcp5 [.expr (input 0 "a" 2), .expr (input 1 "b" 2)] (.int 2) (.int 2) none 2 =
        .ok ((out, ⟨⟨2, products⟩, some ⟨⟨2, sums⟩, ⟨⟨2⟩, ⟨59, 1, none⟩⟩⟩⟩), last) :=
    exists_of_program (by decide +kernel)
  let σ := Assignment.ofTruth (products ++ sums ++ [⟨59, 1, none⟩] ++ out.holes) ones.contains
  have htruth : ∀ k ∈ products ++ sums ++ [⟨59, 1, none⟩], σ.truth k = ones.contains k :=
    fun k hk => Assignment.truth_ofTruth (List.mem_append_left _ hk)
  have covers : σ.Covers out.holes := Assignment.covers_ofTruth (List.subset_append_right _ _)
  have hproducts : ∀ u v, LutProgram.read ⟨2, products⟩ σ.truth [u, v] = (u && v) := by
    intro u v
    rw [LutProgram.read, List.map_congr_left fun k hk => htruth k (by simp [hk])]
    revert u v
    decide
  have hsums : ∀ u v, LutProgram.read ⟨2, sums⟩ σ.truth [u, v] = v := by
    intro u v
    rw [LutProgram.read, List.map_congr_left fun k hk => htruth k (by simp [hk])]
    revert u v
    decide
  have hadds : Adds .latticeEcp5 σ.truth ⟨⟨2, sums⟩, ⟨⟨2⟩, ⟨59, 1, none⟩⟩⟩ := by
    refine ⟨(htruth _ (by simp)).trans (by decide), fun _ _ _ => hsums, fun unit hunit hstyle => ?_⟩
    cases hunit
    cases hstyle
  have hx : (input 0 "a" 2).interpret [("a", 3), ("b", 3)] ∅ Primitive.standard = .ok 3 :=
    interpret_input rfl (by decide)
  have hy : (input 1 "b" 2).interpret [("a", 3), ("b", 3)] ∅ Primitive.standard = .ok 3 :=
    interpret_input rfl (by decide)
  have hyields := interpret_product (hinputs _ (by simp)) (hinputs _ (by simp)) (by simp) h hx hy
    covers hproducts (by simpa using hadds)
  exact ⟨out, _, last, σ, h, hyields⟩

end Template
end CircuitSketch
