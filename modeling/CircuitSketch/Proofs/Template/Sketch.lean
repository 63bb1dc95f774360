import CircuitSketch.Proofs.Template.Requested

/-!
# Sketches of all templates

What holds of every sketch, whichever template it comes from: it is grown from the inputs, the holes
that program it are those of its program, and each of these is wired into it. A program can be
handed to a second request for as many inputs and the same width, which is then answered with that
program.
-/
namespace CircuitSketch

open CircuitSketch.Expr Build Template

/-- A program has one hole of one bit for everything that it decides. -/
def Program.Complete : Program → Prop
  | lut l => l.Complete
  | mux m => ∀ l ∈ m.lut, l.Complete
  | carry _ => True
  | row r => r.Complete
  | reduction r => r.Complete
  | chain c => c.Complete
  | adder a => a.Complete
  | comparison c => c.Complete
  | product m => m.Complete
  | shift s => s.Complete

/-- A program has no holes that a sketch of `n` words for the width `w` does without. -/
def Program.Needed (p : Platform) (n w : Nat) (logarithmic : Bool) : Program → Prop
  | reduction r => LevelsNeeded p n w r.levels
  | product m => w = 1 → m.sum = none
  | shift s => ShiftNeeded p (remainingBits w logarithmic) s
  | _ => True

namespace Template

variable {p : Platform} {es ys : List Expr} {w next last : Nat} {logarithmic : Bool} {out a b : Expr}
  {given given' : Option Program} {s : Program}

/-- The holes of a program that is handed to a template, if there is one. -/
def handedHoles (given : Option Program) : List Hole := (given.map Program.holes).getD []

/-- A sketch of some inputs for a width. -/
structure SketchSpec (p : Platform) (es : List Expr) (w : Nat) (logarithmic : Bool)
    (given : Option Program) (next : Nat) (out : Expr) (s : Program) (last : Nat) : Prop where
  complete : s.Complete
  word : out.isWord
  sketched : Sketched es (handedHoles given) s.holes next last [out]
  needed : (∀ g ∈ given, g.Needed p es.length w logarithmic) → s.Needed p es.length w logarithmic
  wires : (∀ g ∈ given, g.Needed p es.length w logarithmic) → ∀ k ∈ s.holes, .hole k ∈ out.preorder

theorem sketchSpec_bitwise {program : Option LutProgram} {l : LutProgram} (hw : 0 < w)
    (hes : ∀ e ∈ es, Fits w e) (hgiven : ∀ g ∈ program.map .lut, Program.Complete g)
    (h : bitwiseOf p es w program next = .ok ((out, l), last)) :
    SketchSpec p es w logarithmic (program.map .lut) next out (.lut l) last := by
  rw [Option.forall_mem_map] at hgiven
  obtain ⟨wide, hspec⟩ := bitwiseOf_spec hw hes hgiven h
  refine ⟨hspec.complete, isWord_of_shape hspec.shape, ?_, fun _ => trivial, fun _ => hspec.wires⟩
  rw [handedHoles, Option.map_map]
  exact hspec.sketched

theorem sketchSpec_carry {width : Datum} {program : Option ChainProgram} {c : ChainProgram}
    (ha : Fits w a) (hb : Fits w b) (hgiven : ∀ g ∈ program.map .chain, Program.Complete g)
    (h : carryBetween p a b w width program next = .ok ((out, c), last)) :
    SketchSpec p [a, b] w logarithmic (program.map .chain) next out (.chain c) last := by
  rw [Option.forall_mem_map] at hgiven
  obtain ⟨unit, hspec⟩ := carryBetween_spec ha hb hgiven h
  refine ⟨hspec.complete, isWord_of_shape hspec.shape, ?_, fun _ => trivial, fun _ => ?_⟩
  · rw [handedHoles, Option.map_map]
    exact hspec.sketched
  · exact List.forall_mem_singleton.mpr hspec.wires

theorem sketchSpec_adder {program : Option AdderProgram} {c : AdderProgram} (hw : 0 < w)
    (ne : es ≠ []) (hes : ∀ e ∈ es, Fits w e)
    (hgiven : ∀ g ∈ program.map .adder, Program.Complete g)
    (h : adderOf p es w program next = .ok ((out, c), last)) :
    SketchSpec p es w logarithmic (program.map .adder) next out (.adder c) last := by
  rw [Option.forall_mem_map] at hgiven
  obtain ⟨x, es, rfl⟩ := List.exists_cons_of_ne_nil ne
  obtain ⟨unit, wide, hspec⟩ := adderOf_spec hw hes hgiven h
  refine ⟨hspec.complete, isWord_of_shape hspec.shape, ?_, fun _ => trivial, fun _ => hspec.wires⟩
  rw [handedHoles, Option.map_map]
  exact hspec.sketched

theorem sketchSpec_comparison {program : Option ComparisonProgram} {c : ComparisonProgram}
    (hw : 0 < w) (hes : ∀ e ∈ es, Fits w e)
    (hgiven : ∀ g ∈ program.map .comparison, Program.Complete g)
    (h : comparisonOf p es w program next = .ok ((out, c), last)) :
    SketchSpec p es w logarithmic (program.map .comparison) next out (.comparison c) last := by
  rw [Option.forall_mem_map] at hgiven
  obtain ⟨unit, wide, wide', hspec⟩ := comparisonOf_spec hw hes hgiven h
  refine ⟨hspec.complete, isWord_of_shape hspec.shape, ?_, fun _ => trivial, fun _ => hspec.wires⟩
  rw [handedHoles, Option.map_map]
  exact hspec.sketched

theorem sketchSpec_tree {share : Bool} {program : Option ReductionProgram} {r : ReductionProgram}
    (hw : 0 < w) (ne : es ≠ []) (hes : ∀ e ∈ es, e.shape = .word w)
    (hgiven : ∀ g ∈ program.map .reduction, Program.Complete g)
    (h : shallowComparisonOf p es program share next = .ok ((out, r), last)) :
    SketchSpec p es w logarithmic (program.map .reduction) next out (.reduction r) last := by
  rw [Option.forall_mem_map] at hgiven
  have hspec := shallowComparisonOf_spec hw ne hes hgiven h
  refine ⟨hspec.complete, isWord_of_shape hspec.shape, ?_, fun hneeded => ?_, fun hneeded => ?_⟩
  · rw [handedHoles, Option.map_map]
    exact hspec.sketched
  · rw [Option.forall_mem_map] at hneeded
    exact (hspec.needed_wires hneeded).1
  · rw [Option.forall_mem_map] at hneeded
    exact (hspec.needed_wires hneeded).2

theorem sketchSpec_product {program : Option ProductProgram} {m : ProductProgram} (hw : 0 < w)
    (ha : a.shape = .word w) (hb : b.shape = .word w)
    (hgiven : ∀ g ∈ program.map .product, Program.Complete g)
    (h : productOf p a b w program next = .ok ((out, m), last)) :
    SketchSpec p [a, b] w logarithmic (program.map .product) next out (.product m) last := by
  rw [Option.forall_mem_map] at hgiven
  have hspec := productOf_spec hw ha hb hgiven h
  refine ⟨hspec.complete, isWord_of_shape hspec.shape, ?_, fun hneeded hone => ?_, fun hneeded => ?_⟩
  · rw [handedHoles, Option.map_map]
    exact hspec.sketched
  · rw [Option.forall_mem_map] at hneeded
    exact hspec.needed hone fun g hg => hneeded g hg hone
  · rw [Option.forall_mem_map] at hneeded
    exact hspec.wires fun hone g hg => hneeded g hg hone

theorem sketchSpec_shift {fill : Fill} {program : Option ShiftProgram} {c : ShiftProgram}
    (hw : 0 < w) (ha : a.shape = .word w) (hb : b.shape = .word w)
    (hgiven : ∀ g ∈ program.map .shift, Program.Complete g)
    (h : shiftOf p a b w program logarithmic fill next = .ok ((out, c), last)) (stages : Datum) :
    SketchSpec p [a, b] w logarithmic (program.map .shift) next out (.shift { c with stages })
      last := by
  rw [Option.forall_mem_map] at hgiven
  have hspec := shiftOf_spec hw ha hb hgiven h
  refine ⟨⟨hspec.complete.mux, hspec.complete.saturate⟩, isWord_of_shape hspec.shape, ?_,
    fun hneeded => ?_, fun hneeded => ?_⟩
  · rw [handedHoles, Option.map_map]
    exact hspec.sketched
  · rw [Option.forall_mem_map] at hneeded
    have hc := hspec.needed hneeded
    exact ⟨hc.mux, hc.saturate⟩
  · rw [Option.forall_mem_map] at hneeded
    exact hspec.wires hneeded

theorem complete_of_handed {α : Type} {make : α → Program} {handed : Option GivenProgram}
    {program : Option α} (hgiven : ∀ g, handed = some (.program g) → g.Complete)
    (h : Handed make handed program) : ∀ g ∈ program.map make, g.Complete := by
  rw [Option.forall_mem_map]
  intro x hx
  rw [Option.mem_def] at hx
  exact hgiven (make x) (by rw [h, hx]; rfl)

/-- What a template returns is a sketch of its inputs and the program of that sketch. -/
theorem sketch_spec {t : TemplateKind} {q : TemplateRequest} (hq : q.inputs = es.map .expr)
    (hes : ∀ e ∈ es, e.WellFormed) (hgiven : ∀ g, q.given = some (.program g) → g.Complete)
    (h : t.sketch p q next = .ok ((out, s), last)) :
    ∃ w given, checkInputs t.demand q.inputs q.count q.width = .ok (es, w) ∧
      q.given = given.map .program ∧
        SketchSpec p es w q.options.logarithmic given next out s last := by
  cases t with
  | bitwise =>
    obtain ⟨⟨e, l⟩, t, hrun, h⟩ := of_bind h
    cases h
    obtain ⟨es', w, program, hcheck, hhanded, -, -, hrun⟩ := bitwise_eq_ok.mp hrun
    obtain rfl := eq_of_checkInputs (hq ▸ hcheck)
    obtain ⟨hw, hfits⟩ := fits_of_checkInputs hes hcheck
    refine ⟨w, program.map .lut, hcheck, by rw [hhanded, Option.map_map]; rfl, ?_⟩
    exact sketchSpec_bitwise hw hfits (complete_of_handed hgiven hhanded) hrun
  | carry =>
    obtain ⟨⟨e, c⟩, t, hrun, h⟩ := of_bind h
    cases h
    obtain ⟨a, b, w, program, hcheck, hhanded, hrun⟩ := carry_eq_ok.mp hrun
    obtain rfl := eq_of_checkInputs (hq ▸ hcheck)
    obtain ⟨hw, hfits⟩ := fits_of_checkInputs hes hcheck
    refine ⟨w, program.map .chain, hcheck, by rw [hhanded, Option.map_map]; rfl, ?_⟩
    exact sketchSpec_carry (hfits a (by simp)) (hfits b (by simp))
      (complete_of_handed hgiven hhanded) hrun
  | bitwiseWithCarry =>
    obtain ⟨⟨e, c⟩, t, hrun, h⟩ := of_bind h
    cases h
    obtain ⟨es', w, program, hcheck, hhanded, -, -, hrun⟩ := bitwiseWithCarry_eq_ok.mp hrun
    obtain rfl := eq_of_checkInputs (hq ▸ hcheck)
    obtain ⟨hw, hfits⟩ := fits_of_checkInputs hes hcheck
    refine ⟨w, program.map .adder, hcheck, by rw [hhanded, Option.map_map]; rfl, ?_⟩
    exact sketchSpec_adder hw (ne_nil_of_checkInputs hcheck) hfits
      (complete_of_handed hgiven hhanded) hrun
  | comparison =>
    obtain ⟨⟨e, c⟩, t, hrun, h⟩ := of_bind h
    cases h
    obtain ⟨es', w, program, hcheck, hhanded, -, -, hrun⟩ := comparison_eq_ok.mp hrun
    obtain rfl := eq_of_checkInputs (hq ▸ hcheck)
    obtain ⟨hw, hfits⟩ := fits_of_checkInputs hes hcheck
    refine ⟨w, program.map .comparison, hcheck, by rw [hhanded, Option.map_map]; rfl, ?_⟩
    exact sketchSpec_comparison hw hfits (complete_of_handed hgiven hhanded) hrun
  | shallowComparison =>
    obtain ⟨⟨e, r⟩, t, hrun, h⟩ := of_bind h
    cases h
    obtain ⟨es', w, program, hcheck, hhanded, hrun⟩ := shallowComparison_eq_ok.mp hrun
    obtain rfl := eq_of_checkInputs (hq ▸ hcheck)
    refine ⟨w, program.map .reduction, hcheck, by rw [hhanded, Option.map_map]; rfl, ?_⟩
    exact sketchSpec_tree (fits_of_checkInputs hes hcheck).1 (ne_nil_of_checkInputs hcheck)
      (shape_of_checkInputs rfl hcheck) (complete_of_handed hgiven hhanded) hrun
  | multiplication =>
    obtain ⟨⟨e, m⟩, t, hrun, h⟩ := of_bind h
    cases h
    obtain ⟨a, b, w, program, hcheck, hhanded, hrun⟩ := product_eq_ok.mp hrun
    obtain rfl := eq_of_checkInputs (hq ▸ hcheck)
    have hshape := shape_of_checkInputs rfl hcheck
    refine ⟨w, program.map .product, hcheck, by rw [hhanded, Option.map_map]; rfl, ?_⟩
    exact sketchSpec_product (fits_of_checkInputs hes hcheck).1 (hshape a (by simp))
      (hshape b (by simp)) (complete_of_handed hgiven hhanded) hrun
  | shift =>
    obtain ⟨⟨e, c⟩, t, hrun, h⟩ := of_bind h
    cases h
    obtain ⟨a, b, w, program, fill, s', hcheck, hhanded, -, hbuild, rfl⟩ :=
      shift_eq_ok.mp hrun
    obtain rfl := eq_of_checkInputs (hq ▸ hcheck)
    have hshape := shape_of_checkInputs rfl hcheck
    refine ⟨w, program.map .shift, hcheck, by rw [hhanded, Option.map_map]; rfl, ?_⟩
    exact sketchSpec_shift (fits_of_checkInputs hes hcheck).1 (hshape a (by simp))
      (hshape b (by simp)) (complete_of_handed hgiven hhanded) hbuild _

/-- A template that is handed a complete program, or none, returns a complete one. -/
theorem complete_of_sketch {t : TemplateKind} {q : TemplateRequest} (hq : q.inputs = es.map .expr)
    (hes : ∀ e ∈ es, e.WellFormed) (hgiven : ∀ g, q.given = some (.program g) → g.Complete)
    (h : t.sketch p q next = .ok ((out, s), last)) : s.Complete := by
  obtain ⟨w, given, -, -, hspec⟩ := sketch_spec hq hes hgiven h
  exact hspec.complete

/-- A program that can be handed to a template: one that came with an earlier sketch, on whatever
platform and however often it was handed on before, or one that was put together with a hole for
everything that it decides. -/
inductive Issued : Program → Prop
  | sketched {p : Platform} {t : TemplateKind} {q : TemplateRequest} {es : List Expr}
      {next last : Nat} {out : Expr} {s : Program} (inputs : q.inputs = es.map .expr)
      (wellFormed : ∀ e ∈ es, e.WellFormed) (before : ∀ g, q.given = some (.program g) → Issued g)
      (run : t.sketch p q next = .ok ((out, s), last)) : Issued s
  | whole {s : Program} (complete : s.Complete) : Issued s

/-- A program has a hole for everything that it decides, however many sketches it has been handed on
through. -/
theorem Issued.complete (h : Issued s) : s.Complete := by
  induction h with
  | sketched inputs wellFormed before run ih => exact complete_of_sketch inputs wellFormed ih run
  | whole complete => exact complete

/-- What a template is handed is complete, if it was issued. -/
theorem complete_of_issued {α : Type} {make : α → Program} {handed : Option GivenProgram}
    {program : Option α} (hgiven : ∀ g, handed = some (.program g) → Issued g)
    (h : Handed make handed program) : ∀ x ∈ program, (make x).Complete :=
  Option.forall_mem_map.mp (complete_of_handed (fun g hg => (hgiven g hg).complete) h)

theorem eq_none_of_handed {α : Type} {make : α → Program} {program : Option α}
    (h : Handed make none program) : program = none := by
  cases program with
  | none => rfl
  | some x => cases h

/-- A run that is handed nothing takes just the inputs, and the width that other inputs pass for. -/
theorem fresh_of_checkInputs {α : Type} {make : α → Program} {program : Option α} {demand : Demand}
    {count width : Datum} {xs : List Expr} {v : Nat}
    (h : checkInputs demand (es.map .expr) count width = .ok (xs, v))
    (passed : checkInputs demand (ys.map .expr) count width = .ok (ys, w))
    (handed : Handed make none program) : xs = es ∧ v = w ∧ program = none :=
  ⟨eq_of_checkInputs h, width_of_checkInputs h passed, eq_none_of_handed handed⟩

theorem handed_map {α : Type} (make : α → Program) (program : Option α) :
    Handed make ((program.map make).map .program) program := by
  rw [Handed, Option.map_map]
  rfl

/-- What is handed on is of the kind of the program that it is, if it is one. -/
theorem exists_program {α : Type} {make : α → Program} {x : α} (h : ∀ g ∈ given, g = make x) :
    ∃ program, given = Option.map make program ∧ ∀ y ∈ program, y = x := by
  cases given with
  | none => exact ⟨none, rfl, by simp⟩
  | some g => exact ⟨some x, by rw [h g rfl]; rfl, by simp⟩

section Reuse

variable {count width : Datum} (hes : ∀ e ∈ es, e.WellFormed) (length : ys.length = es.length)

include hes length

theorem bitwise_reusable {l : LutProgram} (hys : ∀ y ∈ ys, y.WellFormed)
    (passed : checkInputs TemplateKind.bitwise.demand (ys.map .expr) count width = .ok (ys, w))
    (h : bitwise p (es.map .expr) count width none next = .ok ((out, l), last))
    (program : Option LutProgram) (same : ∀ g ∈ program, g = l) (next' : Nat) :
    ∃ out' l' last', bitwise p (ys.map .expr) count width ((program.map .lut).map .program) next' =
      .ok ((out', l'), last') ∧ ∀ g ∈ program, l' = g := by
  obtain ⟨es', w', given, hcheck, hhanded, htruth, hcount, hbuild⟩ := bitwise_eq_ok.mp h
  obtain ⟨rfl, rfl, rfl⟩ := fresh_of_checkInputs hcheck passed hhanded
  obtain ⟨hw, hfits⟩ := fits_of_checkInputs hes hcheck
  obtain ⟨-, hfits'⟩ := fits_of_checkInputs hys passed
  obtain ⟨wide, hspec⟩ := bitwiseOf_spec hw hfits (by simp) hbuild
  obtain ⟨out', l', last', hbuild', hkept⟩ := bitwiseOf_reusable hw hfits hfits' length hbuild
    program (fun g hg => same g hg ▸ hspec.complete) (fun g hg => same g hg ▸ hspec.inputs_eq) next'
  exact ⟨out', l', last', bitwise_eq_ok.mpr
    ⟨ys, w', program, passed, handed_map _ _, htruth, hcount, hbuild'⟩, hkept⟩

theorem carry_reusable {c : ChainProgram} (hys : ∀ y ∈ ys, y.WellFormed)
    (passed : checkInputs TemplateKind.carry.demand (ys.map .expr) count width = .ok (ys, w))
    (h : carry p (es.map .expr) count width none next = .ok ((out, c), last))
    (program : Option ChainProgram) (same : ∀ g ∈ program, g = c) (next' : Nat) :
    ∃ out' c' last', carry p (ys.map .expr) count width ((program.map .chain).map .program) next' =
      .ok ((out', c'), last') ∧ ∀ g ∈ program, c' = g := by
  obtain ⟨a, b, w', given, hcheck, hhanded, hbuild⟩ := carry_eq_ok.mp h
  obtain ⟨rfl, rfl, rfl⟩ := fresh_of_checkInputs hcheck passed hhanded
  obtain ⟨a', b', rfl⟩ := List.length_eq_two.mp length
  obtain ⟨-, hfits⟩ := fits_of_checkInputs hes hcheck
  obtain ⟨-, hfits'⟩ := fits_of_checkInputs hys passed
  obtain ⟨unit, hspec⟩ := carryBetween_spec (hfits a (by simp)) (hfits b (by simp)) (by simp) hbuild
  obtain ⟨out', c', last', hbuild', hkept⟩ := carryBetween_reusable (hfits a (by simp))
    (hfits b (by simp)) (hfits' a' (by simp)) (hfits' b' (by simp)) hbuild program
    (fun g hg => by rw [same g hg]; exact ⟨hspec.complete, rfl⟩) next'
  exact ⟨out', c', last', carry_eq_ok.mpr
    ⟨a', b', w', program, passed, handed_map _ _, hbuild'⟩, hkept⟩

theorem bitwiseWithCarry_reusable {a : AdderProgram} (hys : ∀ y ∈ ys, y.WellFormed)
    (passed : checkInputs TemplateKind.bitwiseWithCarry.demand (ys.map .expr) count width =
      .ok (ys, w))
    (h : bitwiseWithCarry p (es.map .expr) count width none next = .ok ((out, a), last))
    (program : Option AdderProgram) (same : ∀ g ∈ program, g = a) (next' : Nat) :
    ∃ out' a' last', bitwiseWithCarry p (ys.map .expr) count width
      ((program.map .adder).map .program) next' = .ok ((out', a'), last') ∧ ∀ g ∈ program, a' = g := by
  obtain ⟨es', w', given, hcheck, hhanded, htruth, hcount, hbuild⟩ := bitwiseWithCarry_eq_ok.mp h
  obtain ⟨rfl, rfl, rfl⟩ := fresh_of_checkInputs hcheck passed hhanded
  obtain ⟨hw, hfits⟩ := fits_of_checkInputs hes hcheck
  obtain ⟨-, hfits'⟩ := fits_of_checkInputs hys passed
  obtain ⟨x, es, rfl⟩ := List.exists_cons_of_ne_nil (ne_nil_of_checkInputs hcheck)
  obtain ⟨x', ys, rfl⟩ := List.exists_cons_of_ne_nil (ne_nil_of_checkInputs passed)
  obtain ⟨unit, wide, hspec⟩ := adderOf_spec hw hfits (by simp) hbuild
  obtain ⟨out', a', last', hbuild', -, hkept⟩ := adderOf_reusable hw hfits hfits'
    (by simpa using length) (by simp) hbuild program
    (fun g hg => by rw [same g hg]; exact ⟨hspec.complete, hspec.inputs_eq, rfl⟩) next'
  exact ⟨out', a', last', bitwiseWithCarry_eq_ok.mpr
    ⟨x' :: ys, w', program, passed, handed_map _ _, htruth, hcount, hbuild'⟩, hkept⟩

theorem comparison_reusable {c : ComparisonProgram} (hys : ∀ y ∈ ys, y.WellFormed)
    (passed : checkInputs TemplateKind.comparison.demand (ys.map .expr) count width = .ok (ys, w))
    (h : comparison p (es.map .expr) count width none next = .ok ((out, c), last))
    (program : Option ComparisonProgram) (same : ∀ g ∈ program, g = c) (next' : Nat) :
    ∃ out' c' last', comparison p (ys.map .expr) count width
      ((program.map .comparison).map .program) next' = .ok ((out', c'), last') ∧
        ∀ g ∈ program, c' = g := by
  obtain ⟨es', w', given, hcheck, hhanded, htruth, hcount, hbuild⟩ := comparison_eq_ok.mp h
  obtain ⟨rfl, rfl, rfl⟩ := fresh_of_checkInputs hcheck passed hhanded
  obtain ⟨hw, hfits⟩ := fits_of_checkInputs hes hcheck
  obtain ⟨-, hfits'⟩ := fits_of_checkInputs hys passed
  obtain ⟨unit, wide, wide', hspec⟩ := comparisonOf_spec hw hfits (by simp) hbuild
  obtain ⟨out', c', last', hbuild', hkept⟩ := comparisonOf_reusable hw hfits hfits' length (by simp)
    hbuild program (fun g hg => by
      rw [same g hg]
      exact ⟨hspec.complete, hspec.inputs_eq.1, hspec.inputs_eq.2, rfl⟩) next'
  exact ⟨out', c', last', comparison_eq_ok.mpr
    ⟨ys, w', program, passed, handed_map _ _, htruth, hcount, hbuild'⟩, hkept⟩

theorem shallowComparison_reusable {share : Bool} {r : ReductionProgram}
    (passed : checkInputs TemplateKind.shallowComparison.demand (ys.map .expr) count width =
      .ok (ys, w))
    (h : shallowComparison p (es.map .expr) count width none share next = .ok ((out, r), last))
    (program : Option ReductionProgram) (same : ∀ g ∈ program, g = r) (next' : Nat) :
    ∃ out' r' last', shallowComparison p (ys.map .expr) count width
      ((program.map .reduction).map .program) share next' = .ok ((out', r'), last') ∧
        ∀ g ∈ program, r' = g := by
  obtain ⟨es', w', given, hcheck, hhanded, hbuild⟩ := shallowComparison_eq_ok.mp h
  obtain ⟨rfl, rfl, rfl⟩ := fresh_of_checkInputs hcheck passed hhanded
  obtain ⟨out', r', last', hbuild', hkept⟩ := shallowComparisonOf_reusable
    (fits_of_checkInputs hes hcheck).1 (ne_nil_of_checkInputs hcheck)
    (shape_of_checkInputs rfl hcheck) (shape_of_checkInputs rfl passed) length (by simp) same hbuild
    next'
  exact ⟨out', r', last', shallowComparison_eq_ok.mpr
    ⟨ys, w', program, passed, handed_map _ _, hbuild'⟩, hkept⟩

theorem product_reusable {m : ProductProgram}
    (passed : checkInputs TemplateKind.multiplication.demand (ys.map .expr) count width =
      .ok (ys, w))
    (h : product p (es.map .expr) count width none next = .ok ((out, m), last))
    (program : Option ProductProgram) (same : ∀ g ∈ program, g = m) (next' : Nat) :
    ∃ out' m' last', product p (ys.map .expr) count width ((program.map .product).map .program)
      next' = .ok ((out', m'), last') ∧ ∀ g ∈ program, m' = g := by
  obtain ⟨a, b, w', given, hcheck, hhanded, hbuild⟩ := product_eq_ok.mp h
  obtain ⟨rfl, rfl, rfl⟩ := fresh_of_checkInputs hcheck passed hhanded
  obtain ⟨a', b', rfl⟩ := List.length_eq_two.mp length
  have hshape := shape_of_checkInputs rfl hcheck
  have hshape' := shape_of_checkInputs rfl passed
  obtain ⟨out', m', last', hbuild', hkept⟩ := productOf_reusable (fits_of_checkInputs hes hcheck).1
    (hshape a (by simp)) (hshape b (by simp)) (hshape' a' (by simp)) (hshape' b' (by simp)) (by simp)
    hbuild program same next'
  exact ⟨out', m', last', product_eq_ok.mpr
    ⟨a', b', w', program, passed, handed_map _ _, hbuild'⟩, hkept⟩

theorem shift_reusable {fill : Datum} {s : ShiftProgram}
    (passed : checkInputs TemplateKind.shift.demand (ys.map .expr) count width = .ok (ys, w))
    (h : shift p (es.map .expr) count width none logarithmic fill next = .ok ((out, s), last))
    (program : Option ShiftProgram) (same : ∀ g ∈ program, g = s) (next' : Nat) :
    ∃ out' s' last', shift p (ys.map .expr) count width ((program.map .shift).map .program)
      logarithmic fill next' = .ok ((out', s'), last') ∧ ∀ g ∈ program, s' = g := by
  obtain ⟨a, b, w', given, f, s₀, hcheck, hhanded, hfill, hbuild, rfl⟩ := shift_eq_ok.mp h
  obtain ⟨rfl, rfl, rfl⟩ := fresh_of_checkInputs hcheck passed hhanded
  obtain ⟨a', b', rfl⟩ := List.length_eq_two.mp length
  have hshape := shape_of_checkInputs rfl hcheck
  have hshape' := shape_of_checkInputs rfl passed
  obtain ⟨out', s₁, last', hbuild', hkept⟩ := shiftOf_reusable (fits_of_checkInputs hes hcheck).1
    (hshape a (by simp)) (hshape b (by simp)) (hshape' a' (by simp)) (hshape' b' (by simp)) (by simp)
    (fun _ => rfl) (fun g hg => same g hg ▸ ⟨rfl, rfl⟩) hbuild next'
  refine ⟨out', _, last', shift_eq_ok.mpr
    ⟨a', b', w', program, f, s₁, passed, handed_map _ _, hfill, hbuild', rfl⟩, fun g hg => ?_⟩
  rw [hkept g hg, same g hg]

end Reuse

/-- What a run of one kind made can be handed to another run of that kind, if that is so for the
programs of the kind. -/
theorem exists_again {α : Type} {make : α → Program} {run : Build Refusal (Expr × α)}
    (again : Option GivenProgram → Build Refusal (Expr × α)) {next' : Nat}
    (h : (run >>= fun f => pure (f.1, make f.2)) next = .ok ((out, s), last))
    (hgiven' : ∀ g ∈ given', g = s)
    (reusable : ∀ {x}, run next = .ok ((out, x), last) → ∀ program : Option α,
      (∀ g ∈ program, g = x) → ∃ out' x' last',
        again ((program.map make).map .program) next' = .ok ((out', x'), last') ∧
          ∀ g ∈ program, x' = g) :
    ∃ out' s' last', (again (given'.map .program) >>= fun f => pure (f.1, make f.2)) next' =
      .ok ((out', s'), last') ∧ ∀ g ∈ given', s' = g := by
  obtain ⟨⟨e, x⟩, t, hrun, h⟩ := of_bind h
  cases h
  obtain ⟨program, rfl, same⟩ := exists_program hgiven'
  obtain ⟨out', x', last', hagain, hkept⟩ := reusable hrun program same
  exact ⟨out', make x', last', bind_of_ok hagain,
    Option.forall_mem_map.mpr fun g hg => congrArg make (hkept g hg)⟩

/-- As many inputs for the same width get a sketch with a new program, or with the same one. -/
theorem sketch_reusable {t : TemplateKind} {q : TemplateRequest} (hq : q.inputs = es.map .expr)
    (hes : ∀ e ∈ es, e.WellFormed) (fresh : q.given = none)
    (h : t.sketch p q next = .ok ((out, s), last)) (hys : ∀ y ∈ ys, y.WellFormed)
    (length : ys.length = es.length)
    (passed : checkInputs t.demand (ys.map .expr) q.count q.width = .ok (ys, w))
    (hgiven' : ∀ g ∈ given', g = s) (next' : Nat) :
    ∃ out' s' last', t.sketch p { q with inputs := ys.map .expr, given := given'.map .program } next' =
      .ok ((out', s'), last') ∧ ∀ g ∈ given', s' = g := by
  obtain ⟨⟩ := q
  subst hq fresh
  cases t with
  | bitwise =>
    exact exists_again (bitwise p _ _ _) h hgiven' fun hrun program same =>
      bitwise_reusable hes length hys passed hrun program same next'
  | carry =>
    exact exists_again (carry p _ _ _) h hgiven' fun hrun program same =>
      carry_reusable hes length hys passed hrun program same next'
  | bitwiseWithCarry =>
    exact exists_again (bitwiseWithCarry p _ _ _) h hgiven' fun hrun program same =>
      bitwiseWithCarry_reusable hes length hys passed hrun program same next'
  | comparison =>
    exact exists_again (comparison p _ _ _) h hgiven' fun hrun program same =>
      comparison_reusable hes length hys passed hrun program same next'
  | shallowComparison =>
    exact exists_again (shallowComparison p _ _ _ · _) h hgiven' fun hrun program same =>
      shallowComparison_reusable hes length passed hrun program same next'
  | multiplication =>
    exact exists_again (product p _ _ _) h hgiven' fun hrun program same =>
      product_reusable hes length passed hrun program same next'
  | shift =>
    exact exists_again (shift p _ _ _ · _ _) h hgiven' fun hrun program same =>
      shift_reusable hes length passed hrun program same next'

end Template
end CircuitSketch
