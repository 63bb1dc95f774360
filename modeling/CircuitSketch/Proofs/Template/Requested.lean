import CircuitSketch.Proofs.Template.Inputs
import CircuitSketch.Proofs.Template.Product
import CircuitSketch.Proofs.Template.Shift
import CircuitSketch.Proofs.Template.Tree
import CircuitSketch.Template.Basic

/-!
# What a template makes of a request

A template checks its inputs and the program that it is handed, and then builds. For each template
it is said here which requests it answers and which build the answer comes from. Any other request
is turned down.
-/
namespace CircuitSketch

open Build

/-- What a template demands of its inputs. -/
def TemplateKind.demand : TemplateKind → Template.Demand
  | bitwise => Template.bitwiseDemand
  | carry => ⟨"carry", some 2, false⟩
  | bitwiseWithCarry => ⟨"bitwise_with_carry", none, false⟩
  | comparison => ⟨"comparison", none, false⟩
  | shallowComparison => ⟨"shallow_comparison", none, true⟩
  | multiplication => ⟨"multiplication", some 2, true⟩
  | shift => ⟨"shift", some 2, true⟩

namespace Template

variable {p : Platform} {inputs : List Operand} {count width : Datum} {given : Option GivenProgram}
  {next last w : Nat} {out : Expr} {es : List Expr}

/-- What was handed to a template is a program of its kind, or nothing. -/
def Handed {α : Type} (make : α → Program) (given : Option GivenProgram) (program : Option α) :
    Prop :=
  given = program.map fun x => .program (make x)

theorem expect_eq_handed {α : Type} {name kind : String} {read : Program → Option α}
    {program : Option α} (make : α → Program) (hread : ∀ g x, read g = some x ↔ g = make x) :
    expect name kind read given = .ok program ↔ Handed make given program := by
  rw [expect_eq_ok, Handed]
  constructor
  · rintro (⟨rfl, rfl⟩ | ⟨g, x, rfl, hx, rfl⟩)
    · rfl
    · rw [(hread g x).mp hx]
      rfl
  · rintro rfl
    cases program with
    | none => exact .inl ⟨rfl, rfl⟩
    | some x => exact .inr ⟨make x, x, rfl, (hread _ x).mpr rfl, rfl⟩

/-- A check goes before a build. -/
theorem lift_bind_eq_ok {α β : Type} {x : Except Refusal α} {f : α → Build Refusal β} {b : β} :
    ((liftM x : Build Refusal α) >>= f) next = .ok (b, last) ↔
      ∃ a, x = .ok a ∧ f a next = .ok (b, last) := by
  constructor
  · intro h
    obtain ⟨a, t, ha, h⟩ := of_bind h
    obtain ⟨hx, rfl⟩ := of_lift ha
    exact ⟨a, hx, h⟩
  · rintro ⟨a, ha, h⟩
    rwa [bind_of_ok (lift_of_ok ha)]

section Request

variable {α β : Type} {demand : Demand} {name kind : String} {read : Program → Option α}
  {make : α → Program} {f : List Expr → Nat → Option α → Build Refusal β} {r : β}

/-- A template for any number of inputs goes on to extend them, which takes a width and a count that
are numbers. -/
theorem requested_numbers_eq_ok (hread : ∀ g x, read g = some x ↔ g = make x) :
    (do
      let (es, w) ← checkInputs demand inputs count width
      let program ← expect name kind read given
      refuseTruth .zeroExtend width
      refuseCount count
      f es w program : Build Refusal β) next = .ok (r, last) ↔
        ∃ es w program, checkInputs demand inputs count width = .ok (es, w) ∧
          Handed make given program ∧ refuseTruth .zeroExtend width = .ok () ∧
            refuseCount count = .ok () ∧ f es w program next = .ok (r, last) := by
  have hunit (x : Except Refusal Unit) : (∃ a, x = .ok a) ↔ x = .ok () := by
    simp [Unique.exists_iff]
  simp only [lift_bind_eq_ok, Prod.exists, expect_eq_handed make hread, exists_and_left, exists_and_right,
    hunit]

end Request

theorem bitwise_eq_ok {l : LutProgram} :
    bitwise p inputs count width given next = .ok ((out, l), last) ↔
      ∃ es w program, checkInputs TemplateKind.bitwise.demand inputs count width = .ok (es, w) ∧
        Handed .lut given program ∧ refuseTruth .zeroExtend width = .ok () ∧
          refuseCount count = .ok () ∧ bitwiseOf p es w program next = .ok ((out, l), last) := by
  rw [bitwise, expectLut]
  exact requested_numbers_eq_ok fun g x => by cases g <;> simp

theorem bitwiseWithCarry_eq_ok {a : AdderProgram} :
    bitwiseWithCarry p inputs count width given next = .ok ((out, a), last) ↔
      ∃ es w program,
        checkInputs TemplateKind.bitwiseWithCarry.demand inputs count width = .ok (es, w) ∧
          Handed .adder given program ∧ refuseTruth .zeroExtend width = .ok () ∧
            refuseCount count = .ok () ∧ adderOf p es w program next = .ok ((out, a), last) := by
  rw [bitwiseWithCarry]
  exact requested_numbers_eq_ok fun g x => by cases g <;> simp

theorem comparison_eq_ok {c : ComparisonProgram} :
    comparison p inputs count width given next = .ok ((out, c), last) ↔
      ∃ es w program, checkInputs TemplateKind.comparison.demand inputs count width = .ok (es, w) ∧
        Handed .comparison given program ∧ refuseTruth .zeroExtend width = .ok () ∧
          refuseCount count = .ok () ∧ comparisonOf p es w program next = .ok ((out, c), last) := by
  rw [comparison]
  exact requested_numbers_eq_ok fun g x => by cases g <;> simp

theorem shallowComparison_eq_ok {share : Bool} {s : ReductionProgram} :
    shallowComparison p inputs count width given share next = .ok ((out, s), last) ↔
      ∃ es w program,
        checkInputs TemplateKind.shallowComparison.demand inputs count width = .ok (es, w) ∧
          Handed .reduction given program ∧
            shallowComparisonOf p es program share next = .ok ((out, s), last) := by
  rw [shallowComparison, lift_bind_eq_ok]
  constructor
  · rintro ⟨⟨es, w⟩, hes, h⟩
    obtain ⟨program, hgiven, h⟩ := lift_bind_eq_ok.mp h
    have hgiven := (expect_eq_handed .reduction fun g x => by cases g <;> simp).mp hgiven
    exact ⟨es, w, program, hes, hgiven, h⟩
  · rintro ⟨es, w, program, hes, hgiven, h⟩
    refine ⟨(es, w), hes, lift_bind_eq_ok.mpr ⟨program, ?_, h⟩⟩
    exact (expect_eq_handed .reduction fun g x => by cases g <;> simp).mpr hgiven

theorem carry_eq_ok {c : ChainProgram} :
    carry p inputs count width given next = .ok ((out, c), last) ↔
      ∃ a b w program, checkInputs TemplateKind.carry.demand inputs count width = .ok ([a, b], w) ∧
        Handed .chain given program ∧
          carryBetween p a b w width program next = .ok ((out, c), last) := by
  rw [carry, lift_bind_eq_ok]
  constructor
  · rintro ⟨⟨es, w⟩, hes, h⟩
    obtain ⟨program, hgiven, h⟩ := lift_bind_eq_ok.mp h
    have hgiven := (expect_eq_handed .chain fun g x => by cases g <;> simp).mp hgiven
    split at h
    · exact ⟨_, _, w, program, hes, hgiven, h⟩
    · cases h
  · rintro ⟨a, b, w, program, hes, hgiven, h⟩
    refine ⟨([a, b], w), hes, lift_bind_eq_ok.mpr ⟨program, ?_, h⟩⟩
    exact (expect_eq_handed .chain fun g x => by cases g <;> simp).mpr hgiven

theorem product_eq_ok {m : ProductProgram} :
    product p inputs count width given next = .ok ((out, m), last) ↔
      ∃ a b w program,
        checkInputs TemplateKind.multiplication.demand inputs count width = .ok ([a, b], w) ∧
          Handed .product given program ∧
            productOf p a b w program next = .ok ((out, m), last) := by
  rw [product, lift_bind_eq_ok]
  constructor
  · rintro ⟨⟨es, w⟩, hes, h⟩
    obtain ⟨program, hgiven, h⟩ := lift_bind_eq_ok.mp h
    have hgiven := (expect_eq_handed .product fun g x => by cases g <;> simp).mp hgiven
    split at h
    · exact ⟨_, _, w, program, hes, hgiven, h⟩
    · cases h
  · rintro ⟨a, b, w, program, hes, hgiven, h⟩
    refine ⟨([a, b], w), hes, lift_bind_eq_ok.mpr ⟨program, ?_, h⟩⟩
    exact (expect_eq_handed .product fun g x => by cases g <;> simp).mpr hgiven

/-- The number of stages is stated in the form in which the width was given. -/
theorem shift_eq_ok {logarithmic : Bool} {fill : Datum} {s : ShiftProgram} :
    shift p inputs count width given logarithmic fill next = .ok ((out, s), last) ↔
      ∃ a b w program f s',
        checkInputs TemplateKind.shift.demand inputs count width = .ok ([a, b], w) ∧
          Handed .shift given program ∧ Fill.ofDatum fill = .ok f ∧
            shiftOf p a b w program logarithmic f next = .ok ((out, s'), last) ∧
              s = { s' with stages := statedStages width logarithmic } := by
  rw [shift, lift_bind_eq_ok]
  constructor
  · rintro ⟨⟨es, w⟩, hes, h⟩
    obtain ⟨program, hgiven, h⟩ := lift_bind_eq_ok.mp h
    have hgiven := (expect_eq_handed .shift fun g x => by cases g <;> simp).mp hgiven
    obtain ⟨f, hf, h⟩ := lift_bind_eq_ok.mp h
    split at h
    · obtain ⟨⟨out', s'⟩, t, hrun, h⟩ := of_bind h
      cases h
      exact ⟨_, _, w, program, f, s', hes, hgiven, hf, hrun, rfl⟩
    · cases h
  · rintro ⟨a, b, w, program, f, s', hes, hgiven, hf, hrun, rfl⟩
    refine ⟨([a, b], w), hes, lift_bind_eq_ok.mpr ⟨program, ?_, ?_⟩⟩
    · exact (expect_eq_handed .shift fun g x => by cases g <;> simp).mpr hgiven
    · exact lift_bind_eq_ok.mpr ⟨f, hf, bind_of_ok hrun⟩

end Template
end CircuitSketch
