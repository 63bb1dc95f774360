import CircuitSketch.Proofs.Template.Carry
import CircuitSketch.Template.Product
import Mathlib.Tactic.Ring

/-!
# Multiplication

A row of partial products has one lookup table for each column that the row reaches, and all of
them share one program. The rows are added up by adders that share one program as well. If the
tables compute the conjunction and the adders add, then the rows are the shifted copies of the first
input that the bits of the second one ask for, and their sum is the product.
-/
namespace CircuitSketch

open CircuitSketch.Expr Build

/-- The parts of a multiplication are complete. -/
structure ProductProgram.Complete (m : ProductProgram) : Prop where
  products : m.products.Complete
  sum : ∀ a ∈ m.sum, a.Complete

namespace Template

variable {p : Platform} {a b zero : Expr} {i j columns next mid last w : Nat}
  {given program : Option LutProgram} {outs : List Expr} {l : LutProgram}

/-- A row of partial products from column `j` on. -/
structure ColumnsSpec (a b zero : Expr) (i j columns : Nat) (given program : Option LutProgram)
    (next : Nat) (outs : List Expr) (last : Nat) : Prop where
  kept : ∀ g ∈ given, program = some g
  complete : ∀ l ∈ program, l.Complete
  placed : 0 < columns → i < j + columns →
    ∃ l, program = some l ∧ l.inputs = 2 ∧ ∀ k ∈ l.table, .hole k ∈ preorderAll outs
  length : outs.length = columns
  shape : ∀ o ∈ outs, o.shape = .word 1
  sketched : Sketched [a, b, zero] ((given.map LutProgram.table).getD [])
    ((program.map LutProgram.table).getD []) next last outs
  eval : ∀ (env : Valuation) (τ : Hole → Bool) (xs ys : List Bool),
    eval (.settled env τ) a = .ok (.word xs) → xs.length = a.width →
      eval (.settled env τ) b = .ok (.word ys) → ys.length = b.width →
        eval (.settled env τ) zero = .ok (.word [false]) →
          (∀ l ∈ program, ∀ u v, l.read τ [u, v] = (u && v)) →
            List.Forall₂ (fun o bit => eval (.settled env τ) o = .ok (.word [bit])) outs
              ((List.range' j columns).map fun k =>
                decide (i ≤ k) && (xs.getD (k - i) false && ys.getD i false))

theorem columnsSpec_nil (hgiven : ∀ g ∈ given, g.Complete) :
    ColumnsSpec a b zero i j 0 given given next [] next where
  kept _ hg := hg
  complete := hgiven
  placed h := absurd h (Nat.lt_irrefl 0)
  length := rfl
  shape := by simp
  sketched := ⟨le_rfl, fun _ hk => .inl hk, by simp⟩
  eval _ _ _ _ _ _ _ _ _ _ := .nil

/-- A column that the row reaches. -/
theorem ColumnsSpec.product {x y out : Expr} {start : Nat} (hij : i ≤ j)
    (hx : Cut a (j - i) (j - i) x) (hy : Cut b i i y) (hj : j - i < a.width) (hi : i < b.width)
    (le : next ≤ start) (kept : ∀ g ∈ given, l = g)
    (head : Platform.LutSpec [x, y] given start out l mid)
    (tail : ColumnsSpec a b zero i (j + 1) columns (some l) program mid outs last) :
    ColumnsSpec a b zero i j (columns + 1) given program next (out :: outs) last := by
  obtain rfl : program = some l := tail.kept l rfl
  have hcuts : Sketched [a, b, zero] ((given.map LutProgram.table).getD []) [] next start [x, y] := by
    refine .of_grown _ le fun z hz => ?_
    simp only [List.mem_cons, List.not_mem_nil, or_false] at hz
    rcases hz with rfl | rfl
    · exact hx.grown.mono (by simp) (fun _ h => h) (fun _ h => h)
    · exact hy.grown.mono (by simp) (fun _ h => h) (fun _ h => h)
  have hout : Sketched [a, b, zero] ((given.map LutProgram.table).getD []) l.table next mid [out] :=
    hcuts.step head.sketched (List.Subset.refl _) (by simp) (by simp) (List.Subset.refl _) (by simp)
      (by simp)
  refine ⟨fun g hg => by rw [kept g hg], tail.complete, fun _ _ => ⟨l, rfl, ?_, fun k hk => ?_⟩, ?_,
    ?_, ?_, fun env τ xs ys ha hxs hb hys hz hread => ?_⟩
  · simpa using head.inputs_eq
  · exact mem_preorderAll.mpr ⟨out, by simp, head.output.wires k hk⟩
  · rw [List.length_cons, tail.length]
  · simpa using ⟨head.output.shape, tail.shape⟩
  · refine hout.step tail.sketched (List.Subset.refl _) (by simp) (by simp) (List.Subset.refl _)
      (by simp) fun z hz => ?_
    rcases List.mem_cons.mp hz with rfl | hz <;> simp [*]
  · have hx' := hx.eval_getD ha hxs (by omega)
    have hy' := hy.eval_getD hb hys (by omega)
    have hbit := head.output.eval env τ _ (.cons hx' (.cons hy' .nil))
    rw [hread l rfl] at hbit
    rw [List.range'_succ, List.map_cons, decide_eq_true hij, Bool.true_and]
    exact .cons hbit (tail.eval env τ xs ys ha hxs hb hys hz hread)

/-- A column below the row. -/
theorem ColumnsSpec.below (hij : j < i) (hzero : zero.shape = .word 1)
    (tail : ColumnsSpec a b zero i (j + 1) columns given program next outs last) :
    ColumnsSpec a b zero i j (columns + 1) given program next (zero :: outs) last where
  kept := tail.kept
  complete := tail.complete
  placed _ h := by
    obtain ⟨l, hl, hinputs, hwires⟩ := tail.placed (by omega) (by omega)
    refine ⟨l, hl, hinputs, fun k hk => ?_⟩
    obtain ⟨o, ho, hko⟩ := mem_preorderAll.mp (hwires k hk)
    exact mem_preorderAll.mpr ⟨o, by simp [ho], hko⟩
  length := by rw [List.length_cons, tail.length]
  shape := by simpa using ⟨hzero, tail.shape⟩
  sketched := ⟨tail.sketched.le, tail.sketched.issued,
    List.forall_mem_cons.mpr ⟨.operand (by simp), tail.sketched.grown⟩⟩
  eval env τ xs ys ha hxs hb hys hz hread := by
    rw [List.range'_succ, List.map_cons, decide_eq_false (by omega), Bool.false_and]
    exact .cons hz (tail.eval env τ xs ys ha hxs hb hys hz hread)

theorem productColumns_spec (ha : a.shape = .word w) (hb : b.shape = .word w)
    (hzero : zero.shape = .word 1) (hi : i < w) (hj : j + columns ≤ w)
    (hgiven : ∀ g ∈ given, g.Complete)
    (h : productColumns p a b zero i columns j given next = .ok ((outs, program), last)) :
    ColumnsSpec a b zero i j columns given program next outs last := by
  induction columns generalizing j given next outs with
  | zero =>
    cases h
    exact columnsSpec_nil hgiven
  | succ columns ih =>
    rw [productColumns] at h
    split at h
    · next hij =>
      obtain ⟨x, t₁, hx, h⟩ := of_bind h
      obtain ⟨y, t₂, hy, h⟩ := of_bind h
      obtain ⟨⟨out, l⟩, t₃, hout, h⟩ := of_bind h
      obtain ⟨⟨rest, program⟩, t₄, hrest, h⟩ := of_bind h
      cases h
      obtain ⟨hle₁, hcutx⟩ := of_bit ha (by omega) hx
      obtain ⟨hle₂, hcuty⟩ := of_bit hb hi hy
      have head := Platform.lut_spec hgiven hout
      have tail := ih (by omega) (by simpa using head.complete) hrest
      refine .product hij hcutx hcuty (by rw [width_of_shape ha]; omega)
        (by rw [width_of_shape hb]; omega) (hle₁.trans hle₂) (fun g hg => ?_) head tail
      rw [Option.mem_def] at hg
      exact Platform.lut_kept (hg ▸ hout)
    · next hij =>
      obtain ⟨⟨rest, program⟩, t, hrest, h⟩ := of_bind h
      cases h
      exact .below (by omega) hzero (ih (by omega) hgiven hrest)

/-- A row of partial products can be made again with a new program, or with any for two inputs. -/
theorem productColumns_reusable {a' b' z : Expr} (ha' : a'.shape = .word w)
    (hb' : b'.shape = .word w) (hi : i < w) (hj : j + columns ≤ w)
    (h : productColumns p a b zero i columns j given next = .ok ((outs, program), last))
    (given' : Option LutProgram) (sized : ∀ g ∈ given', g.inputs = 2) (next' : Nat) :
    ∃ outs' program' last',
      productColumns p a' b' z i columns j given' next' = .ok ((outs', program'), last') ∧
        ∀ g ∈ program', g.inputs = 2 := by
  induction columns generalizing j given next outs program last given' next' with
  | zero => exact ⟨[], given', next', rfl, sized⟩
  | succ columns ih =>
    have hj' : j + 1 + columns ≤ w := by omega
    rw [productColumns] at h ⊢
    split at h
    · next hij =>
      obtain ⟨x, t₁, -, h⟩ := of_bind h
      obtain ⟨y, t₂, -, h⟩ := of_bind h
      obtain ⟨⟨out, l⟩, t₃, hout, h⟩ := of_bind h
      obtain ⟨⟨rest, program⟩, t₄, hrest, h⟩ := of_bind h
      obtain ⟨x', u₁, hx'⟩ := succeeds_bit (ε := Refusal) a' (j - i) next'
      obtain ⟨y', u₂, hy'⟩ := succeeds_bit (ε := Refusal) b' i u₁
      have hbits : ∀ z ∈ [x', y'], z.shape = .word 1 := by
        simpa using ⟨(of_bit ha' (by omega) hx').2.shape_bit, (of_bit hb' hi hy').2.shape_bit⟩
      obtain ⟨out', l', u₃, hout', -⟩ :=
        Platform.lut_reusable hout [x', y'] rfl hbits given' (by simpa using sized) u₂
      obtain ⟨outs', program', last', hrest', hsized⟩ :=
        ih hj' hrest (some l') (by simpa using Platform.lut_sized hout') u₃
      refine ⟨out' :: outs', program', last', ?_, hsized⟩
      rw [if_pos hij, bind_of_ok hx', bind_of_ok hy', bind_of_ok hout']
      simp only
      rw [bind_of_ok hrest']
      rfl
    · next hij =>
      obtain ⟨⟨rest, program⟩, t, hrest, h⟩ := of_bind h
      obtain ⟨outs', program', last', hrest', hsized⟩ := ih hj' hrest given' sized next'
      refine ⟨z :: outs', program', last', ?_, hsized⟩
      rw [if_neg hij, bind_of_ok hrest']
      rfl

/-- The bits of a row of partial products. -/
def productRow (w : Nat) (xs ys : List Bool) (i : Nat) : List Bool :=
  (List.range w).map fun k => decide (i ≤ k) && (xs.getD (k - i) false && ys.getD i false)

variable {rows : Nat} {row : Expr}

/-- The rows of partial products from row `i` on. -/
structure RowsSpec (a b zero : Expr) (w i rows : Nat) (given program : Option LutProgram)
    (next : Nat) (outs : List Expr) (last : Nat) : Prop where
  kept : ∀ g ∈ given, program = some g
  complete : ∀ l ∈ program, l.Complete
  placed : 0 < rows →
    ∃ l, program = some l ∧ l.inputs = 2 ∧ ∀ k ∈ l.table, .hole k ∈ preorderAll outs
  length : outs.length = rows
  shape : ∀ o ∈ outs, o.shape = .word w
  sketched : Sketched [a, b, zero] ((given.map LutProgram.table).getD [])
    ((program.map LutProgram.table).getD []) next last outs
  eval : ∀ (env : Valuation) (τ : Hole → Bool) (xs ys : List Bool),
    eval (.settled env τ) a = .ok (.word xs) → xs.length = a.width →
      eval (.settled env τ) b = .ok (.word ys) → ys.length = b.width →
        eval (.settled env τ) zero = .ok (.word [false]) →
          (∀ l ∈ program, ∀ u v, l.read τ [u, v] = (u && v)) →
            List.Forall₂ (fun o bits => eval (.settled env τ) o = .ok (.word bits)) outs
              ((List.range' i rows).map (productRow w xs ys))

theorem rowsSpec_nil (hgiven : ∀ g ∈ given, g.Complete) :
    RowsSpec a b zero w i 0 given given next [] next where
  kept _ hg := hg
  complete := hgiven
  placed h := absurd h (Nat.lt_irrefl 0)
  length := rfl
  shape := by simp
  sketched := ⟨le_rfl, fun _ hk => .inl hk, by simp⟩
  eval _ _ _ _ _ _ _ _ _ _ := .nil

theorem RowsSpec.cons {columns : List Expr} {start : Nat} (hi : i < w)
    (head : ColumnsSpec a b zero i 0 w given (some l) next columns mid) (le : mid ≤ start)
    (join : Join columns row)
    (tail : RowsSpec a b zero w (i + 1) rows (some l) program start outs last) :
    RowsSpec a b zero w i (rows + 1) given program next (row :: outs) last := by
  obtain rfl : program = some l := tail.kept l rfl
  obtain ⟨l', hl', hinputs, hwires⟩ := head.placed (by omega) (by omega)
  obtain rfl : l = l' := Option.some.inj hl'
  have hshape : row.shape = .word w := by rw [join.shape_of_bits head.shape, head.length]
  have hrow : Sketched [a, b, zero] ((given.map LutProgram.table).getD []) l.table next start
      [row] := by
    have hjoin : Sketched columns [] [] mid start [row] :=
      .of_grown [] le (List.forall_mem_singleton.mpr join.grown)
    exact head.sketched.step hjoin (List.Subset.refl _) (by simp) (by simp) (List.Subset.refl _)
      (fun z hz => by simp [hz]) (by simp)
  refine ⟨head.kept, tail.complete, fun _ => ⟨l, rfl, hinputs, fun k hk => ?_⟩, ?_, ?_, ?_,
    fun env τ xs ys ha hxs hb hys hz hread => ?_⟩
  · exact mem_preorderAll.mpr
      ⟨row, by simp, mem_preorder_of_mem_preorderAll (hwires k hk) join.uses⟩
  · rw [List.length_cons, tail.length]
  · exact List.forall_mem_cons.mpr ⟨hshape, tail.shape⟩
  · refine hrow.step tail.sketched (List.Subset.refl _) (by simp) (by simp) (List.Subset.refl _)
      (by simp) fun z hz => ?_
    rcases List.mem_cons.mp hz with rfl | hz <;> simp [*]
  · have hcolumns := head.eval env τ xs ys ha hxs hb hys hz hread
    rw [← List.range_eq_range'] at hcolumns
    rw [List.range'_succ, List.map_cons]
    exact .cons (join.eval_bits hcolumns) (tail.eval env τ xs ys ha hxs hb hys hz hread)

theorem productRows_spec (ha : a.shape = .word w) (hb : b.shape = .word w)
    (hzero : zero.shape = .word 1) (hi : i + rows ≤ w) (hgiven : ∀ g ∈ given, g.Complete)
    (h : productRows p a b zero w rows i given next = .ok ((outs, program), last)) :
    RowsSpec a b zero w i rows given program next outs last := by
  induction rows generalizing i given next outs with
  | zero =>
    cases h
    exact rowsSpec_nil hgiven
  | succ rows ih =>
    obtain ⟨⟨columns, found⟩, t₁, hcolumns, h⟩ := of_bind h
    obtain ⟨row, t₂, hrow, h⟩ := of_bind h
    obtain ⟨⟨rest, program⟩, t₃, hrest, h⟩ := of_bind h
    cases h
    have head := productColumns_spec ha hb hzero (by omega) (by omega) hgiven hcolumns
    obtain ⟨l, rfl, -, -⟩ := head.placed (by omega) (by omega)
    have hwords : ∀ x ∈ columns, x.isWord := fun x hx => isWord_of_shape (head.shape x hx)
    have hne : columns ≠ [] := List.ne_nil_of_length_pos (by rw [head.length]; omega)
    obtain ⟨hle, hjoin⟩ := of_concatBits hwords hne hrow
    exact .cons (by omega) head hle hjoin (ih (by omega) head.complete hrest)

/-- As many rows can be made again with a new program, or with any for two inputs. -/
theorem productRows_reusable {a' b' z : Expr} (ha' : a'.shape = .word w)
    (hb' : b'.shape = .word w) (hi : i + rows ≤ w)
    (h : productRows p a b zero w rows i given next = .ok ((outs, program), last))
    (given' : Option LutProgram) (sized : ∀ g ∈ given', g.inputs = 2) (next' : Nat) :
    ∃ outs' program' last',
      productRows p a' b' z w rows i given' next' = .ok ((outs', program'), last') := by
  induction rows generalizing i given next outs program last given' next' with
  | zero => exact ⟨[], given', next', rfl⟩
  | succ rows ih =>
    have hi' : i + 1 + rows ≤ w := by omega
    obtain ⟨⟨columns, found⟩, t₁, hcolumns, h⟩ := of_bind h
    obtain ⟨row, t₂, hrow, h⟩ := of_bind h
    obtain ⟨⟨rest, program⟩, t₃, hrest, h⟩ := of_bind h
    obtain ⟨columns', found', u₁, hcolumns', hsized⟩ :=
      productColumns_reusable ha' hb' (by omega) (Nat.zero_add w).le hcolumns given' sized next'
    obtain ⟨row', u₂, hrow'⟩ := succeeds_concatBits (ε := Refusal) columns' u₁
    obtain ⟨outs', program', last', hrest'⟩ := ih hi' hrest found' hsized u₂
    refine ⟨row' :: outs', program', last', ?_⟩
    rw [productRows, bind_of_ok hcolumns']
    simp only
    rw [bind_of_ok hrow', bind_of_ok hrest']
    rfl

section Sum

variable {p : Platform} {total out : Expr} {given program : Option AdderProgram} {a : AdderProgram}
  {es : List Expr} {τ : Hole → Bool}

/-- The truth values of an adder's holes make it add two words. -/
structure Adds (p : Platform) (τ : Hole → Bool) (a : AdderProgram) : Prop where
  carryIn : τ a.chain.carryIn = false
  adder : ∀ unit, p.carry = some unit → unit.style = .adder →
    ∀ u v, a.bitwise.read τ [u, v] = v
  muxXor : ∀ unit, p.carry = some unit → unit.style = .muxXor →
    ∀ u v, a.bitwise.read τ [u, v] = (u ^^ v)

/-- An adding chain adds, and so does one made of multiplexers if it selects by the difference. -/
theorem toNat_chain_adds {unit : CarryUnit} (hunit : p.carry = some unit) (h : Adds p τ a)
    {xs ys : List Bool} (hxs : xs.length = w) (hys : ys.length = w) :
    Word.toNat (unit.style.chain (τ a.chain.carryIn) (xs.zip ((List.range w).map fun k =>
      a.bitwise.read τ [xs.getD k false, ys.getD k false]))).1 =
        (Word.toNat xs + Word.toNat ys) % twoPow w := by
  have hread : ∀ u v, a.bitwise.read τ [u, v] = unit.style.sumBit u v := by
    cases hstyle : unit.style with
    | adder => exact h.adder unit hunit hstyle
    | muxXor => exact h.muxXor unit hunit hstyle
  simp only [hread]
  obtain ⟨hfst, hsnd, hlen⟩ := unzip_words hxs hys
  rw [h.carryIn, zip_map_range_getD unit.style.sumBit hxs hys, CarryStyle.toNat_chain_sum, hfst,
    hsnd, hlen]

/-- The sum of a word and rows of the full width. -/
structure SumSpec (p : Platform) (total : Expr) (rows : List Expr) (w : Nat)
    (given program : Option AdderProgram) (next : Nat) (out : Expr) (last : Nat) : Prop where
  kept : ∀ g ∈ given, program = some g
  absent : rows = [] → program = given
  complete : ∀ a ∈ program, a.Complete
  inputs_eq : rows ≠ [] → ∀ a ∈ program, a.bitwise.inputs = 2
  shape : out.shape = .word w
  sketched : Sketched (total :: rows) ((given.map AdderProgram.holes).getD [])
    ((program.map AdderProgram.holes).getD []) next last [out]
  uses : ∀ x ∈ total :: rows, x ∈ out.preorder
  wires : rows ≠ [] → ∀ a ∈ program, ∀ k ∈ a.holes, .hole k ∈ out.preorder
  eval : ∀ (env : Valuation) (τ : Hole → Bool) (bits : List Bool) (words : List (List Bool)),
    (rows ≠ [] → ∀ a ∈ program, Adds p τ a) →
      eval (.settled env τ) total = .ok (.word bits) → bits.length = w →
        List.Forall₂ (fun x b => eval (.settled env τ) x = .ok (.word b) ∧ b.length = w) rows
          words →
          ∃ sum, eval (.settled env τ) out = .ok (.word sum) ∧ sum.length = w ∧
            Word.toNat sum = (Word.toNat bits + (words.map Word.toNat).sum) % twoPow w

theorem sumSpec_nil (htotal : total.shape = .word w) (hgiven : ∀ g ∈ given, g.Complete) :
    SumSpec p total [] w given given next total next where
  kept _ hg := hg
  absent _ := rfl
  complete := hgiven
  inputs_eq h := absurd rfl h
  shape := htotal
  sketched := ⟨le_rfl, fun _ hk => .inl hk,
    List.forall_mem_singleton.mpr (.operand (by simp))⟩
  uses := by simp [mem_preorder_self]
  wires h := absurd rfl h
  eval env τ bits words _ htotal hlen hrows := by
    cases hrows
    refine ⟨bits, htotal, hlen, ?_⟩
    rw [List.map_nil, List.sum_nil, Nat.add_zero, Nat.mod_eq_of_lt (hlen ▸ Word.toNat_lt bits)]

/-- One more row. The adder of every row is the same. -/
theorem SumSpec.cons {row sum : Expr} {rows wide : List Expr} {unit : CarryUnit}
    (htotal : total.shape = .word w) (kept : ∀ g ∈ given, a = g)
    (head : AdderSpec p total [row] w given next sum unit a wide mid)
    (tail : SumSpec p sum rows w (some a) program mid out last) :
    SumSpec p total (row :: rows) w given program next out last := by
  obtain rfl : program = some a := tail.kept a rfl
  have hsum : sum ∈ out.preorder := tail.uses sum (by simp)
  refine ⟨fun g hg => by rw [kept g hg], (fun h => by cases h), tail.complete, ?_, tail.shape, ?_,
    ?_, ?_, fun env τ bits words hadds hbits hlen hrows => ?_⟩
  · intro _ b hb
    rw [← Option.some.inj hb, head.inputs_eq]
    rfl
  · refine head.sketched.step tail.sketched (List.Subset.refl _) (by simp) (by simp) ?_ ?_ ?_
    · simp
    · intro x hx
      rcases List.mem_cons.mp hx with rfl | hx <;> simp [*]
    · simp
  · intro x hx
    by_cases hmem : x ∈ rows
    · exact tail.uses x (by simp [hmem])
    · exact mem_preorder_trans (head.uses x (by simpa [hmem] using hx)) hsum
  · intro _ b hb k hk
    rw [← Option.some.inj hb] at hk
    exact mem_preorder_trans (head.wires k hk) hsum
  · cases hrows with
    | @cons _ v _ words hrow hrows =>
      have hwide := eval_extensions head.extensions
        (.cons ⟨hbits, hlen⟩ (.cons hrow .nil))
      have hvalue := head.eval env τ bits _ hbits (hlen.trans (width_of_shape htotal).symm) hwide
      have hzero : zeroExtend w bits = bits := by simp [zeroExtend, hlen]
      simp only [hzero, List.map_cons, List.map_nil] at hvalue
      have hadd := toNat_chain_adds head.unit_eq (hadds (by simp) a rfl) hlen hrow.2
      obtain ⟨total, htotal, htlen, hnat⟩ := tail.eval env τ _ words (fun _ => hadds (by simp)) hvalue (by
        rw [CarryStyle.length_chain, List.length_zip, List.length_map, List.length_range, hlen,
          Nat.min_self]) hrows
      refine ⟨total, htotal, htlen, ?_⟩
      rw [hnat, hadd, Nat.mod_add_mod, List.map_cons, List.sum_cons, Nat.add_assoc]

theorem fits_pair {x y : Expr} (hw : 0 < w) (hx : x.shape = .word w) (hy : y.shape = .word w) :
    ∀ e ∈ [x, y], Fits w e := by
  simpa using ⟨fits_of_shape hw hx, fits_of_shape hw hy⟩

/-- The first of several rows is added, and the others to what comes out. -/
theorem of_sumRows {row : Expr} {rows : List Expr} (hw : 0 < w) (htotal : total.shape = .word w)
    (hrow : row.shape = .word w) (hgiven : ∀ g ∈ given, g.Complete)
    (h : sumRows p w total (row :: rows) given next = .ok ((out, program), last)) :
    ∃ sum a mid unit wide, adderOf p [total, row] w given next = .ok ((sum, a), mid) ∧
      AdderSpec p total [row] w given next sum unit a wide mid ∧
        sumRows p w sum rows (some a) mid = .ok ((out, program), last) := by
  obtain ⟨⟨sum, a⟩, mid, hsum, h⟩ := of_bind h
  have hfits := fits_pair hw htotal hrow
  obtain ⟨unit, wide, head⟩ := adderOf_spec hw hfits hgiven hsum
  exact ⟨sum, a, mid, unit, wide, hsum, head, h⟩

theorem sumRows_spec (hw : 0 < w) {rows : List Expr} (htotal : total.shape = .word w)
    (hrows : ∀ r ∈ rows, r.shape = .word w) (hgiven : ∀ g ∈ given, g.Complete)
    (h : sumRows p w total rows given next = .ok ((out, program), last)) :
    SumSpec p total rows w given program next out last := by
  induction rows generalizing total given next with
  | nil =>
    cases h
    exact sumSpec_nil htotal hgiven
  | cons row rows ih =>
    obtain ⟨hrow, hrows⟩ := List.forall_mem_cons.mp hrows
    obtain ⟨sum, a, mid, unit, wide, hsum, head, h⟩ := of_sumRows hw htotal hrow hgiven h
    have hfits := fits_pair hw htotal hrow
    refine .cons htotal (fun g hg => ?_) head
      (ih head.shape hrows (by simpa using head.complete) h)
    rw [Option.mem_def] at hg
    exact adderOf_kept hfits (hg ▸ hsum)

/-- Only a sum of no rows has no program. -/
theorem eq_nil_of_sumRows {rows : List Expr} (hw : 0 < w) (htotal : total.shape = .word w)
    (hrows : ∀ r ∈ rows, r.shape = .word w) (hgiven : ∀ g ∈ given, g.Complete)
    (h : sumRows p w total rows given next = .ok ((out, none), last)) : rows = [] := by
  cases rows with
  | nil => rfl
  | cons row rows =>
    obtain ⟨hrow, hrows⟩ := List.forall_mem_cons.mp hrows
    obtain ⟨sum, a, mid, unit, wide, -, head, h⟩ := of_sumRows hw htotal hrow hgiven h
    have hspec := sumRows_spec hw head.shape hrows (by simpa using head.complete) h
    cases hspec.kept a rfl

/-- As many rows can be summed with a new program, or with any for two inputs and for that width. -/
theorem sumRows_reusable (hw : 0 < w) {rows rows' : List Expr} {total' : Expr}
    (htotal : total.shape = .word w) (hrows : ∀ r ∈ rows, r.shape = .word w)
    (htotal' : total'.shape = .word w) (hrows' : ∀ r ∈ rows', r.shape = .word w)
    (hlen : rows'.length = rows.length) (hgiven : ∀ g ∈ given, g.Complete)
    (h : sumRows p w total rows given next = .ok ((out, program), last))
    (given' : Option AdderProgram) (sized : rows ≠ [] → ∀ g ∈ given', g.Complete ∧
      g.bitwise.inputs = 2 ∧ ∀ a ∈ program, g.chain.carry = a.chain.carry) (next' : Nat) :
    ∃ out' program' last', sumRows p w total' rows' given' next' = .ok ((out', program'), last') := by
  induction rows generalizing total given next rows' total' given' next' with
  | nil =>
    obtain rfl := List.length_eq_zero_iff.mp hlen
    exact ⟨total', given', next', rfl⟩
  | cons row rows ih =>
    obtain ⟨row', rows', rfl⟩ := List.exists_cons_of_length_eq_add_one hlen
    obtain ⟨hrow, hrows⟩ := List.forall_mem_cons.mp hrows
    obtain ⟨hrow', hrows'⟩ := List.forall_mem_cons.mp hrows'
    obtain ⟨sum, a, mid, unit, wide, hsum, head, h⟩ := of_sumRows hw htotal hrow hgiven h
    have hfits := fits_pair hw htotal hrow
    have hfits' := fits_pair hw htotal' hrow'
    obtain rfl : program = some a :=
      (sumRows_spec hw head.shape hrows (by simpa using head.complete) h).kept a rfl
    have hcomplete' : ∀ g ∈ given', g.Complete := fun g hg => (sized nofun g hg).1
    obtain ⟨sum', a', u, hsum', hcarry, -⟩ := adderOf_reusable hw hfits hfits' rfl hgiven hsum given'
      (fun g hg => have hg := sized nofun g hg; ⟨hg.1, hg.2.1, hg.2.2 a rfl⟩) next'
    obtain ⟨unit', wide', head'⟩ := adderOf_spec hw hfits' hcomplete' hsum'
    obtain ⟨out', program', last', hout'⟩ := ih head.shape hrows head'.shape hrows'
      (by simpa using hlen) (by simpa using head.complete) h (some a')
      (fun _ => by simpa using ⟨head'.complete, head'.inputs_eq, hcarry⟩) u
    exact ⟨out', program', last', by rw [sumRows, bind_of_ok hsum']; exact hout'⟩

end Sum

/-- A row of partial products is the first word shifted, if the second one has that bit. -/
theorem toNat_productRow (w i : Nat) (xs ys : List Bool) :
    Word.toNat (productRow w xs ys i) =
      (ys.getD i false).toNat * (Word.toNat xs * twoPow i) % twoPow w := by
  apply Nat.eq_of_testBit_eq
  intro k
  rw [Word.testBit_toNat, twoPow_eq, twoPow_eq, Nat.testBit_mod_two_pow, productRow,
    List.getD_eq_getElem?_getD, List.getElem?_map]
  by_cases hk : k < w
  · rw [List.getElem?_range hk, Option.map_some, Option.getD_some, decide_eq_true hk, Bool.true_and]
    cases ys.getD i false with
    | false => simp
    | true => rw [Bool.toNat_true, Nat.one_mul, Nat.testBit_mul_two_pow, Word.testBit_toNat,
        Bool.and_true]
  · rw [List.getElem?_eq_none (by simpa using hk), decide_eq_false hk]
    rfl

/-- The rows of partial products add up to the product of the first word and the bits of the second
one that they stand for. -/
theorem sum_productRows (w : Nat) (xs ys : List Bool) (i n : Nat) (hn : i + n = ys.length) :
    ((List.range' i n).map fun r => Word.toNat (productRow w xs ys r)).sum % twoPow w =
      Word.toNat xs * twoPow i * Word.toNat (ys.drop i) % twoPow w := by
  induction n generalizing i with
  | zero =>
    rw [List.drop_of_length_le (by omega)]
    simp
  | succ n ih =>
    have hi : i < ys.length := by omega
    rw [List.range'_succ, List.map_cons, List.sum_cons, toNat_productRow, Nat.mod_add_mod,
      ← Nat.add_mod_mod, ih (i + 1) (by omega), Nat.add_mod_mod, List.drop_eq_getElem_cons hi,
      Word.toNat_cons, List.getD_eq_getElem?_getD, List.getElem?_eq_getElem hi, Option.getD_some,
      twoPow_succ]
    congr 1
    ring

section Multiplication

variable {given : Option ProductProgram} {m : ProductProgram} {out a' b' : Expr}

/-- The holes of a multiplication's program. -/
def productHoles (m : ProductProgram) : List Hole :=
  m.products.table ++ (m.sum.map AdderProgram.holes).getD []

/-- The product of two words of the full width. A word of one bit needs no sum. -/
structure ProductSpec (p : Platform) (a b : Expr) (w : Nat) (given : Option ProductProgram)
    (next : Nat) (out : Expr) (m : ProductProgram) (last : Nat) : Prop where
  complete : m.Complete
  inputs_eq : m.products.inputs = 2 ∧ (1 < w → ∀ s ∈ m.sum, s.bitwise.inputs = 2)
  shape : out.shape = .word w
  sketched : Sketched [a, b] ((given.map productHoles).getD []) (productHoles m) next last [out]
  needed : w = 1 → (∀ g ∈ given, g.sum = none) → m.sum = none
  wires : (w = 1 → ∀ g ∈ given, g.sum = none) → ∀ k ∈ productHoles m, .hole k ∈ out.preorder
  eval : ∀ (env : Valuation) (τ : Hole → Bool) (xs ys : List Bool),
    (∀ u v, m.products.read τ [u, v] = (u && v)) → (1 < w → ∀ s ∈ m.sum, Adds p τ s) →
      eval (.settled env τ) a = .ok (.word xs) → xs.length = w →
        eval (.settled env τ) b = .ok (.word ys) → ys.length = w →
          ∃ bits, eval (.settled env τ) out = .ok (.word bits) ∧ bits.length = w ∧
            Word.toNat bits = Word.toNat xs * Word.toNat ys % twoPow w

theorem complete_product (hgiven : ∀ g ∈ given, g.Complete) :
    (∀ g ∈ given.map ProductProgram.products, g.Complete) ∧
      ∀ g ∈ given.bind ProductProgram.sum, g.Complete := by
  cases given with
  | none => simp
  | some g =>
    have hg := hgiven g rfl
    exact ⟨by simpa using hg.products, hg.sum⟩

/-- A multiplication as it is made: the rows of partial products, and the first one with the others
added to it. -/
structure ProductRun (p : Platform) (a b : Expr) (w : Nat) (given : Option ProductProgram)
    (next : Nat) (out : Expr) (m : ProductProgram) (last mid : Nat) (first : Expr)
    (rest : List Expr) : Prop where
  rows : productRows p a b (zeroBit next) w w 0 (given.map ProductProgram.products) (next + 1) =
    .ok ((first :: rest, some m.products), mid)
  rowSpec : RowsSpec a b (zeroBit next) w 0 w (given.map ProductProgram.products)
    (some m.products) (next + 1) (first :: rest) mid
  sum : sumRows p w first rest (given.bind ProductProgram.sum) mid = .ok ((out, m.sum), last)
  sumSpec : SumSpec p first rest w (given.bind ProductProgram.sum) m.sum mid out last

theorem RowsSpec.exists_cons {products : Option LutProgram} {rows : List Expr} {zero : Expr}
    {given : Option LutProgram} (hw : 0 < w)
    (h : RowsSpec a b zero w i w given products next rows last) :
    ∃ first rest, rows = first :: rest ∧ first.shape = .word w ∧
      (∀ r ∈ rest, r.shape = .word w) ∧ rest.length + 1 = w := by
  obtain ⟨first, rest, rfl⟩ := List.exists_cons_of_ne_nil
    (List.ne_nil_of_length_pos (by rw [h.length]; exact hw) : rows ≠ [])
  obtain ⟨hfirst, hrest⟩ := List.forall_mem_cons.mp h.shape
  exact ⟨first, rest, rfl, hfirst, hrest, h.length⟩

theorem of_productOf (hw : 0 < w) (ha : a.shape = .word w) (hb : b.shape = .word w)
    (hgiven : ∀ g ∈ given, g.Complete)
    (h : productOf p a b w given next = .ok ((out, m), last)) :
    ∃ mid first rest, ProductRun p a b w given next out m last mid first rest := by
  obtain ⟨hproducts, hsums⟩ := complete_product hgiven
  obtain ⟨zero, t, hzero, h⟩ := of_bind h
  rw [const_zero] at hzero
  cases hzero
  obtain ⟨⟨rows, products⟩, mid, hrows, h⟩ := of_bind h
  obtain ⟨⟨total, sum⟩, stop, htotal, h⟩ := of_bind h
  cases h
  have hrowSpec := productRows_spec ha hb rfl (by omega) hproducts hrows
  obtain ⟨l, rfl, -, -⟩ := hrowSpec.placed hw
  obtain ⟨first, rest, rfl, hfirst, hrest, -⟩ := hrowSpec.exists_cons hw
  exact ⟨mid, first, rest, hrows, hrowSpec, htotal, sumRows_spec hw hfirst hrest hsums htotal⟩

namespace ProductRun

variable {first : Expr} {rest : List Expr}
  (h : ProductRun p a b w given next out m last mid first rest)

include h

theorem length_rest : rest.length + 1 = w := h.rowSpec.length

/-- Rows are added wherever there are several bits. -/
theorem one_lt_iff : 1 < w ↔ rest ≠ [] := by
  have hlen := h.length_rest
  rw [← List.length_pos_iff]
  omega

theorem absent (hw : w = 1) (hnone : ∀ g ∈ given, g.sum = none) : m.sum = none := by
  have hlen := h.length_rest
  rw [h.sumSpec.absent (List.eq_nil_of_length_eq_zero (by omega))]
  cases given with
  | none => rfl
  | some g => exact hnone g rfl

theorem sketched : Sketched [a, b] ((given.map productHoles).getD []) (productHoles m) next last
    [out] := by
  have hzero : Sketched [a, b] ((given.map productHoles).getD []) [] next (next + 1)
      [zeroBit next] := by
    refine .of_grown _ (by omega) (List.forall_mem_singleton.mpr ?_)
    exact (grown_zeroBit next).mono (by simp) (fun _ h => h) (fun _ h => h)
  have hrows : Sketched [a, b] ((given.map productHoles).getD []) m.products.table next mid
      (first :: rest) := by
    refine hzero.step h.rowSpec.sketched (List.Subset.refl _) ?_ (by simp)
      (List.Subset.refl _) (by simp) fun z hz => by simp [hz]
    cases given <;> simp [productHoles]
  refine hrows.step h.sumSpec.sketched (List.Subset.refl _) ?_ ?_ (List.Subset.refl _)
    (fun z hz => by simp [hz]) (by simp)
  · cases given <;> simp [productHoles]
  · simp [productHoles]

theorem wires (hw : 0 < w) (hnone : w = 1 → ∀ g ∈ given, g.sum = none) :
    ∀ k ∈ productHoles m, .hole k ∈ out.preorder := by
  obtain ⟨l, hl, -, hwires⟩ := h.rowSpec.placed hw
  obtain rfl := Option.some.inj hl
  intro k hk
  rcases List.mem_append.mp hk with hk | hk
  · exact mem_preorder_of_mem_preorderAll (hwires k hk) fun y hy => h.sumSpec.uses y hy
  · cases hsum : m.sum with
    | none =>
      rw [hsum] at hk
      cases hk
    | some s =>
      rw [hsum] at hk
      by_cases hempty : rest = []
      · have hone : w = 1 := by rw [← h.length_rest, hempty]; rfl
        rw [h.absent hone (hnone hone)] at hsum
        cases hsum
      · exact h.sumSpec.wires hempty s hsum k hk

theorem eval (ha : a.shape = .word w) (hb : b.shape = .word w) {env : Valuation}
    {τ : Hole → Bool} {xs ys : List Bool}
    (hand : ∀ u v, m.products.read τ [u, v] = (u && v)) (hadds : 1 < w → ∀ s ∈ m.sum, Adds p τ s)
    (hxs : Expr.eval (.settled env τ) a = .ok (.word xs)) (hxlen : xs.length = w)
    (hys : Expr.eval (.settled env τ) b = .ok (.word ys)) (hylen : ys.length = w) :
    ∃ bits, Expr.eval (.settled env τ) out = .ok (.word bits) ∧ bits.length = w ∧
      Word.toNat bits = Word.toNat xs * Word.toNat ys % twoPow w := by
  have hrows := h.rowSpec.eval env τ xs ys hxs (hxlen.trans (width_of_shape ha).symm) hys
    (hylen.trans (width_of_shape hb).symm) (eval_zeroBit _ _) (by simpa using hand)
  have hrange : List.range' 0 w = 0 :: List.range' 1 rest.length := by
    rw [← h.length_rest, List.range'_succ]
  rw [hrange, List.map_cons, List.forall₂_cons] at hrows
  obtain ⟨hfirst, hrest⟩ := hrows
  have hrowLen : ∀ i, (productRow w xs ys i).length = w := fun i => by simp [productRow]
  obtain ⟨bits, hbits, hbitsLen, hnat⟩ := h.sumSpec.eval env τ _ _
    (fun hne => hadds (h.one_lt_iff.mpr hne)) hfirst (hrowLen 0) (by
      rw [List.forall₂_map_right_iff] at hrest ⊢
      exact hrest.imp fun x i hx => ⟨hx, hrowLen i⟩)
  have htotal := sum_productRows w xs ys 0 w (by omega)
  rw [hrange, List.map_cons, List.sum_cons, List.drop_zero, show twoPow 0 = 1 from rfl,
    Nat.mul_one] at htotal
  refine ⟨bits, hbits, hbitsLen, ?_⟩
  rw [hnat, List.map_map, ← htotal]
  rfl

end ProductRun

theorem productOf_spec (hw : 0 < w) (ha : a.shape = .word w) (hb : b.shape = .word w)
    (hgiven : ∀ g ∈ given, g.Complete)
    (h : productOf p a b w given next = .ok ((out, m), last)) :
    ProductSpec p a b w given next out m last := by
  obtain ⟨mid, first, rest, hrun⟩ := of_productOf hw ha hb hgiven h
  obtain ⟨l, hl, hinputs, -⟩ := hrun.rowSpec.placed hw
  obtain rfl := Option.some.inj hl
  exact {
    complete := ⟨hrun.rowSpec.complete _ rfl, hrun.sumSpec.complete⟩
    inputs_eq := ⟨hinputs, fun hw' => hrun.sumSpec.inputs_eq (hrun.one_lt_iff.mp hw')⟩
    shape := hrun.sumSpec.shape
    sketched := hrun.sketched
    needed := hrun.absent
    wires := hrun.wires hw
    eval := fun _ _ _ _ hand hadds hxs hxlen hys hylen =>
      hrun.eval ha hb hand hadds hxs hxlen hys hylen }

/-- Words of the same width can be multiplied with a new program, or with the same one. -/
theorem productOf_reusable (hw : 0 < w) (ha : a.shape = .word w) (hb : b.shape = .word w)
    (ha' : a'.shape = .word w) (hb' : b'.shape = .word w) (hgiven : ∀ g ∈ given, g.Complete)
    (h : productOf p a b w given next = .ok ((out, m), last)) (given' : Option ProductProgram)
    (hgiven' : ∀ g ∈ given', g = m) (next' : Nat) :
    ∃ out' m' last', productOf p a' b' w given' next' = .ok ((out', m'), last') ∧
      ∀ g ∈ given', m' = g := by
  have hspec := productOf_spec hw ha hb hgiven h
  have hcomplete' : ∀ g ∈ given', g.Complete := fun g hg => hgiven' g hg ▸ hspec.complete
  obtain ⟨-, hsums⟩ := complete_product hgiven
  obtain ⟨hproducts', hsums'⟩ := complete_product hcomplete'
  obtain ⟨mid, first, rest, hrun⟩ := of_productOf hw ha hb hgiven h
  have hsized : ∀ g ∈ given'.map ProductProgram.products, g.inputs = 2 := by
    cases given' with
    | none => simp
    | some g => simpa [hgiven' g rfl] using hspec.inputs_eq.1
  obtain ⟨rows', products', u, hrows'⟩ := productRows_reusable (z := zeroBit next') ha' hb'
    (by omega) hrun.rows (given'.map ProductProgram.products) hsized (next' + 1)
  have hrowSpec' := productRows_spec ha' hb' rfl (by omega) hproducts' hrows'
  obtain ⟨l', rfl, -, -⟩ := hrowSpec'.placed hw
  obtain ⟨hfirst, hrest⟩ := List.forall_mem_cons.mp hrun.rowSpec.shape
  obtain ⟨first', rest', rfl, hfirst', hrest', hlen'⟩ := hrowSpec'.exists_cons hw
  have hcount : rest'.length = rest.length := by
    have hlen := hrun.length_rest
    omega
  have hadders : rest ≠ [] → ∀ g ∈ given'.bind ProductProgram.sum, g.Complete ∧
      g.bitwise.inputs = 2 ∧ ∀ a ∈ m.sum, g.chain.carry = a.chain.carry := by
    intro hne g hg
    obtain ⟨m', hm, hg⟩ := Option.bind_eq_some_iff.mp hg
    obtain rfl := hgiven' m' hm
    exact ⟨hrun.sumSpec.complete g hg, hrun.sumSpec.inputs_eq hne g hg,
      fun a ha => by rw [Option.some.inj (hg.symm.trans ha)]⟩
  obtain ⟨total', sum', last', htotal'⟩ := sumRows_reusable hw hfirst hrest hfirst' hrest' hcount
    hsums hrun.sum (given'.bind ProductProgram.sum) hadders u
  refine ⟨total', ⟨l', sum'⟩, last', ?_, fun g hg => ?_⟩
  · rw [productOf, bind_of_ok const_zero]
    simp only
    rw [bind_of_ok hrows']
    simp only [List.headD_cons, List.tail_cons]
    rw [bind_of_ok htotal']
    rfl
  · rw [Option.mem_def] at hg
    subst hg
    obtain rfl := hgiven' g rfl
    have hproducts : l' = g.products := Option.some.inj (hrowSpec'.kept g.products rfl)
    have hsumSpec' := sumRows_spec hw hfirst' hrest' hsums' htotal'
    have hsum : sum' = g.sum := by
      cases hg : g.sum with
      | none =>
        have hnil := eq_nil_of_sumRows hw hfirst hrest hsums (hg ▸ hrun.sum)
        rw [hnil, List.length_nil, List.length_eq_zero_iff] at hcount
        exact (hsumSpec'.absent hcount).trans hg
      | some s => exact hsumSpec'.kept s hg
    rw [hproducts, hsum]

end Multiplication

end Template
end CircuitSketch
