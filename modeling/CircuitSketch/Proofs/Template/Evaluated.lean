import CircuitSketch.Proofs.Evaluation.Reading
import CircuitSketch.Proofs.Evaluation.Settled
import CircuitSketch.Proofs.Interface.Programmed
import CircuitSketch.Proofs.Template.Sketch

/-!
# Every sketch has a value

A sketch of closed inputs that have values has a value over every bit algebra, as soon as its holes
are settled: an assignment of any integers to its holes settles them to truth values, and a solver
settles them to conditions. Neither evaluation meets a part that it cannot go on from.
-/
namespace CircuitSketch

open CircuitSketch.Expr Solve

variable {env : Valuation} {e : Expr}

/-- The value of a closed expression does not depend on an assignment. -/
theorem Expr.eval_concrete_of_closed {modules : ModuleTable} (closed : e.holes = [])
    (σ ρ : Assignment) : eval (.concrete env σ modules) e = eval (.concrete env ρ modules) e := by
  refine eval_congr ⟨rfl, fun _ _ _ _ _ _ => rfl, fun k hk => ?_⟩
  have hmem := mem_holes.mpr hk
  rw [closed] at hmem
  cases hmem

/-- A closed expression that has a value evaluates to constant conditions. -/
theorem Expr.eval_symbolic_of_closed {modules : ModuleTable} {v : Value Bool} (hw : e.WellFormed)
    (h : eval (.concrete env ∅ modules) e = .ok v) (starts : Std.HashMap Hole Nat) :
    eval (symbolic env starts modules) e = .ok (v.read Condition.const) := by
  have hreads : (Context.concrete env ∅ modules).Reads Condition.const
      (symbolic env starts modules) := by
    refine ⟨rfl, rfl, fun {k bits} hk => ?_⟩
    simp [Context.concrete, Assignment.bits?] at hk
  exact eval_read_of_bool Condition.laws.isReading_const (sized_concrete _ _ _) hreads hw h

namespace Template

variable {p : Platform} {t : TemplateKind} {q : TemplateRequest} {es : List Expr}
  {next last : Nat} {out : Expr} {s : Program}

/-- A sketch has the value that its inputs lead to, whichever algebra its holes are settled over. -/
theorem SketchSpec.exists_eval {β : Type} [BitAlgebra β] {c : Context β} {w : Nat}
    {logarithmic : Bool} {given : Option Program}
    (h : SketchSpec p es w logarithmic given next out s last) (hc : c.Sized)
    (hm : c.modules = Primitive.standard)
    (hes : ∀ x ∈ es, x.WellFormed ∧ ∃ v, eval c x = .ok v)
    (settled : ∀ k ∈ out.holes, ∃ bits, c.decision k = some bits) :
    ∃ bits, eval c out = .ok (.word bits) ∧ bits.length = out.width := by
  have hgrown := h.sketched.grown out (by simp)
  obtain ⟨v, hv⟩ := hgrown.exists_eval hc hm hes fun k hk => settled k (mem_holes.mpr hk)
  have hshape := eval_hasShape hc (hgrown.wellFormed fun x hx => (hes x hx).1) hv
  rw [isWord_iff.mp h.word] at hshape
  obtain ⟨bits, rfl, hlen⟩ := hshape.exists_word
  exact ⟨bits, hv, hlen⟩

/-- Under every assignment to its holes a sketch stands for a number of its width, and a solver that
evaluates the sketch gets a word of conditions of the same width. -/
theorem sketch_has_value (hq : q.inputs = es.map .expr)
    (hes : ∀ x ∈ es, x.WellFormed ∧ x.holes = [] ∧
      ∃ n, x.interpret env ∅ Primitive.standard = .ok n)
    (hgiven : ∀ g, q.given = some (.program g) → Issued g)
    (h : t.sketch p q next = .ok ((out, s), last)) :
    (∀ σ : Assignment, σ.Covers out.holes →
      ∃ n, out.interpret env σ Primitive.standard = .ok n ∧ n < twoPow out.width) ∧
    ∃ bits, out.evaluate (symbolic env (Std.HashMap.ofList (numberBits 0 out.holes))
      Primitive.standard) = .ok (.word bits) ∧ bits.length = out.width := by
  obtain ⟨w, given, -, -, hspec⟩ := sketch_spec hq (fun x hx => (hes x hx).1)
    (fun g hg => (hgiven g hg).complete) h
  have hclosed : ∀ x ∈ es, x.WellFormed ∧ ∃ bits : List Bool,
      eval (.concrete env ∅ Primitive.standard) x = .ok (.word bits) := by
    intro x hx
    obtain ⟨hw, -, n, hn⟩ := hes x hx
    obtain ⟨bits, hbits, -⟩ := exists_bits_of_interpret hw hn
    exact ⟨hw, bits, hbits⟩
  refine ⟨fun σ covers => ?_, ?_⟩
  · obtain ⟨bits, hbits, hlen⟩ := hspec.exists_eval (sized_concrete env σ Primitive.standard) rfl
      (fun x hx => ⟨(hclosed x hx).1, by
        obtain ⟨bits, hbits⟩ := (hclosed x hx).2
        exact ⟨_, (eval_concrete_of_closed (hes x hx).2.1 σ ∅).trans hbits⟩⟩)
      (fun k hk => (Assignment.exists_bits? (covers k hk)).imp fun _ h => h.1)
    refine ⟨_, interpret_of_eval hspec.word hbits, ?_⟩
    rw [← hlen]
    exact Word.toNat_lt bits
  · rw [evaluate_eq_eval]
    refine hspec.exists_eval (sized_symbolic env Primitive.standard _) rfl
      (fun x hx => ⟨(hclosed x hx).1, ?_⟩) fun k hk => ?_
    · obtain ⟨bits, hbits⟩ := (hclosed x hx).2
      exact ⟨_, eval_symbolic_of_closed (hclosed x hx).1 hbits _⟩
    · obtain ⟨start, -, hstart⟩ :=
        exists_symbolic_decision env Primitive.standard (nodup_holes out) hk
      exact ⟨_, hstart⟩

/-- A comparison of two bits each, which is three chained primitives, with the program of another
one before it. -/
theorem sketch_has_value_comparison : ∃ first s mid out last,
    TemplateKind.comparison.sketch .generic
      ⟨[input 0 "a" 2, input 1 "b" 2].map .expr, .int 2, .int 2, none, ⟨true, false, .null⟩⟩ 4 =
        .ok ((first, s), mid) ∧
    TemplateKind.comparison.sketch .generic
      ⟨[input 2 "c" 2, input 3 "d" 2].map .expr, .int 2, .int 2, some (.program s),
        ⟨true, false, .null⟩⟩ mid = .ok ((out, s), last) ∧
    (∃ n, out.interpret [("c", 1), ("d", 2)] (.ofTruth out.holes fun _ => true)
      Primitive.standard = .ok n ∧ n < twoPow out.width) ∧
    ∃ bits, out.evaluate (symbolic [("c", 1), ("d", 2)]
      (Std.HashMap.ofList (numberBits 0 out.holes)) Primitive.standard) = .ok (.word bits) ∧
        bits.length = out.width := by
  obtain ⟨⟨⟨first, s⟩, mid⟩, made⟩ : ∃ r, TemplateKind.comparison.sketch .generic
      ⟨[input 0 "a" 2, input 1 "b" 2].map .expr, .int 2, .int 2, none, ⟨true, false, .null⟩⟩ 4 =
        .ok r := Build.exists_of_isSome (by decide +kernel)
  have hwf : ∀ x ∈ [input 0 "a" 2, input 1 "b" 2], x.WellFormed := by simp [wellFormed_input]
  have hes : ∀ x ∈ [input 2 "c" 2, input 3 "d" 2], x.WellFormed ∧ x.holes = [] ∧
      ∃ n, x.interpret [("c", 1), ("d", 2)] ∅ Primitive.standard = .ok n := by
    intro x hx
    rcases List.mem_pair.mp hx with rfl | rfl
    · exact ⟨wellFormed_input (by decide), holes_input, 1, interpret_input rfl (by decide)⟩
    · exact ⟨wellFormed_input (by decide), holes_input, 2, interpret_input rfl (by decide)⟩
  have issued : Issued s := .sketched rfl hwf (by simp) made
  obtain ⟨_, passed, rfl⟩ : ∃ r, checkInputs TemplateKind.comparison.demand
      ([input 2 "c" 2, input 3 "d" 2].map .expr) (.int 2) (.int 2) = .ok r ∧
        r = ([input 2 "c" 2, input 3 "d" 2], 2) := Build.exists_of_part (by decide +kernel)
  obtain ⟨out, _, last, again, hkept⟩ := sketch_reusable rfl hwf rfl made
    (fun x hx => (hes x hx).1) rfl passed (show ∀ g ∈ some s, g = s by simp) mid
  obtain rfl := hkept s rfl
  obtain ⟨hvalue, hsymbolic⟩ := sketch_has_value rfl hes (by simpa using issued) again
  exact ⟨first, _, mid, out, last, made, again,
    hvalue _ (Assignment.covers_ofTruth (List.Subset.refl _)), hsymbolic⟩

end Template
end CircuitSketch
