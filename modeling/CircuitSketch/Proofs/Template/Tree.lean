import CircuitSketch.Proofs.Reduction.Kept
import CircuitSketch.Template.Tree

/-!
# Comparison by a tree

The tree reduces the bits of all inputs at once, so its value is what the tables make of all bits.
-/
namespace CircuitSketch.Template

open CircuitSketch.Expr Build

variable {p : Platform} {es es' : List Expr} {w next mid last : Nat} {rows : List (List Expr)}
  {given : Option ReductionProgram} {share : Bool} {out : Expr} {s : ReductionProgram}

/-- The rows are the bits of words of one width. -/
structure BitRows (es : List Expr) (w : Nat) (rows : List (List Expr)) : Prop where
  cuts : List.Forall₂ (fun e row => List.Forall₂ (fun i y => Cut e i i y) (List.range w) row) es rows
  grown : ∀ x ∈ rows.flatten, GrownFrom es x
  even : Row.Even w rows

theorem of_mapM_bits (hw : 0 < w) (ne : es ≠ []) (hes : ∀ e ∈ es, e.shape = .word w)
    (h : es.mapM (Build.bits : Expr → Build Refusal (List Expr)) next = .ok (rows, mid)) :
    next ≤ mid ∧ BitRows es w rows := by
  obtain ⟨hle, hall⟩ := of_mapM h fun e he s row t hrow => (of_bits (hes e he) hrow).1
  have hcuts : List.Forall₂ (fun e row => List.Forall₂ (fun i y => Cut e i i y) (List.range w) row)
      es rows :=
    forall₂_of_mem hall fun e he row ⟨s, t, _, _, hrow⟩ => (of_bits (hes e he) hrow).2
  refine ⟨hle, hcuts, fun x hx => ?_, hw, ?_, fun row hrow => ?_, fun row hrow x hx => ?_⟩
  · obtain ⟨row, hrow, hx⟩ := List.mem_flatten.mp hx
    obtain ⟨e, he, hbits⟩ := exists_of_forall₂_right hcuts hrow
    obtain ⟨i, -, hcut⟩ := exists_of_forall₂_right hbits hx
    exact hcut.grown.mono (by simpa using he) (fun _ => False.elim) (fun _ => False.elim)
  · rintro rfl
    exact ne (List.forall₂_nil_right_iff.mp hcuts)
  · obtain ⟨e, -, hbits⟩ := exists_of_forall₂_right hcuts hrow
    simpa using hbits.length_eq.symm
  · obtain ⟨e, -, hbits⟩ := exists_of_forall₂_right hcuts hrow
    obtain ⟨i, -, hcut⟩ := exists_of_forall₂_right hbits hx
    exact hcut.shape_bit

/-- The bits of words that have values. -/
theorem BitRows.eval (h : BitRows es w rows) (hes : ∀ e ∈ es, e.shape = .word w) {c : Context Bool}
    {words : List (List Bool)}
    (hwords : List.Forall₂ (fun e b => Expr.eval c e = .ok (.word b) ∧ b.length = w) es words) :
    List.Forall₂ (List.Forall₂ fun x b => Expr.eval c x = .ok (.word [b])) rows words := by
  have hcuts := h.cuts
  clear h
  induction hcuts generalizing words with
  | nil =>
    cases hwords
    exact .nil
  | @cons e row es rows hbits _ ih =>
    obtain ⟨b, rest, ⟨heval, hlen⟩, hrest, rfl⟩ := List.forall₂_cons_left_iff.mp hwords
    exact .cons (eval_all_cuts hbits heval (hes e (by simp)) hlen)
      (ih (fun z hz => hes z (by simp [hz])) hrest)

/-- A comparison by a tree is a reduction of the bits of its inputs. -/
structure ShallowSpec (p : Platform) (es : List Expr) (w : Nat) (given : Option ReductionProgram)
    (share : Bool) (next : Nat) (out : Expr) (s : ReductionProgram) (last : Nat) : Prop where
  complete : s.Complete
  shape : out.shape = .word 1
  sketched : Sketched es ((given.map ReductionProgram.holes).getD []) s.holes next last [out]
  needed_wires : (∀ g ∈ given, LevelsNeeded p es.length w g.levels) →
    LevelsNeeded p es.length w s.levels ∧ ∀ k ∈ s.holes, .hole k ∈ out.preorder
  eval_pooled : ∀ {op : Bool → Bool → Bool} {e : Bool}, Pools op e → ∀ (env : Valuation)
    (τ : Hole → Bool) (words : List (List Bool)), (∀ r ∈ s.levels, r.PooledBy τ op e) →
      List.Forall₂ (fun x b => eval (.settled env τ) x = .ok (.word b) ∧ b.length = w) es words →
        eval (.settled env τ) out = .ok (.word [words.flatten.foldr op e])

/-- The bits of the inputs are taken and then reduced. -/
theorem of_shallowComparisonOf (hw : 0 < w) (ne : es ≠ []) (hes : ∀ e ∈ es, e.shape = .word w)
    (hgiven : ∀ g ∈ given, g.Complete)
    (h : shallowComparisonOf p es given share next = .ok ((out, s), last)) :
    ∃ rows mid, next ≤ mid ∧ BitRows es w rows ∧
      Reduction.ReduceSpec p w rows given share mid out s last := by
  obtain ⟨rows, mid, hrows, h⟩ := of_bind h
  obtain ⟨hle, hbits⟩ := of_mapM_bits hw ne hes hrows
  obtain ⟨length, hspec⟩ := Reduction.reduce_spec hgiven h
  obtain ⟨row, hrow⟩ := List.exists_mem_of_ne_nil rows hbits.even.ne
  obtain rfl : length = w := (hspec.even.same row hrow).symm.trans (hbits.even.same row hrow)
  exact ⟨rows, mid, hle, hbits, hspec⟩

theorem shallowComparisonOf_spec (hw : 0 < w) (ne : es ≠ []) (hes : ∀ e ∈ es, e.shape = .word w)
    (hgiven : ∀ g ∈ given, g.Complete)
    (h : shallowComparisonOf p es given share next = .ok ((out, s), last)) :
    ShallowSpec p es w given share next out s last := by
  obtain ⟨rows, mid, hle, hbits, hspec⟩ := of_shallowComparisonOf hw ne hes hgiven h
  have hcount : es.length = rows.length := hbits.cuts.length_eq
  refine ⟨hspec.complete, hspec.shape, ?_, fun hgiven => ?_,
    fun hop env τ words hpooled hwords => ?_⟩
  · have hcuts : Sketched es ((given.map ReductionProgram.holes).getD []) [] next mid
        rows.flatten := .of_grown _ hle hbits.grown
    exact hcuts.step hspec.sketched (List.Subset.refl _) (by simp) (by simp) (List.Subset.refl _)
      (fun x hx => by simp [hx]) (by simp)
  · rw [hcount] at hgiven ⊢
    exact hspec.needed_wires hgiven
  · exact hspec.eval_pooled hop (Context.settles_settled _ _ hspec.complete.ones) hpooled
      (hbits.eval hes hwords)

/-- As many words of the same width can be compared with a new program, or with the same one. -/
theorem shallowComparisonOf_reusable {given' : Option ReductionProgram} (hw : 0 < w) (ne : es ≠ [])
    (hes : ∀ e ∈ es, e.shape = .word w) (hes' : ∀ e ∈ es', e.shape = .word w)
    (same : es'.length = es.length) (hgiven : ∀ g ∈ given, g.Complete) (hgiven' : ∀ g ∈ given', g = s)
    (h : shallowComparisonOf p es given share next = .ok ((out, s), last)) (next' : Nat) :
    ∃ out' s' last', shallowComparisonOf p es' given' share next' = .ok ((out', s'), last') ∧
      ∀ g ∈ given', s' = g := by
  obtain ⟨rows, mid, hrows, h⟩ := of_bind h
  obtain ⟨-, hbits⟩ := of_mapM_bits hw ne hes hrows
  have ne' : es' ≠ [] := by
    rw [← List.length_pos_iff] at ne ⊢
    omega
  obtain ⟨rows', mid', hrows'⟩ :=
    succeeds_mapM (fun e (_ : e ∈ es') => succeeds_bits (ε := Refusal) e) next'
  obtain ⟨-, hbits'⟩ := of_mapM_bits hw ne' hes' hrows'
  have hcount : rows'.length = rows.length := by
    rw [← hbits.cuts.length_eq, ← hbits'.cuts.length_eq, same]
  obtain ⟨out', s', last', hreduce', hkept⟩ :=
    Reduction.reduce_reusable hbits'.even hcount hbits.even hgiven hgiven' h mid'
  exact ⟨out', s', last', (bind_of_ok hrows').trans hreduce', hkept⟩

end CircuitSketch.Template
