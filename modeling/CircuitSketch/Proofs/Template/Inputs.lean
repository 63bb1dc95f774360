import CircuitSketch.Proofs.Template.Bitwise
import CircuitSketch.Template.Inputs

/-!
# Checked inputs

What is known once the inputs of a template have passed its checks: they are words that fit the
width, and as wide as the sketch if the template asks for that. Whether the number of inputs that
was asked for is accepted depends on nothing but how many inputs there are.
-/
namespace CircuitSketch.Template

open CircuitSketch.Expr Build

variable {demand : Demand} {w i : Nat} {count width : Datum} {inputs : List Operand}
  {es : List Expr}

theorem bitwidth_eq_ok (name : String) :
    bitwidth name width = .ok w ↔ width.number? = some (w : Int) ∧ 0 < w := by
  rw [bitwidth]
  cases hnumber : width.number? with
  | none => simp
  | some n =>
    simp only [Option.some.injEq]
    split
    · next hlow =>
      simp only [reduceCtorEq, false_iff]
      omega
    · next hpos =>
      rw [Except.ok.injEq]
      omega

/-- An input that a template accepts: a word no wider than the sketch, and as wide where the
template demands that. -/
structure Accepts (demand : Demand) (w : Nat) (e : Expr) : Prop where
  word : e.isWord
  le : e.width ≤ w
  exact : demand.exact → e.width = w

theorem accepts_iff {e : Expr} : Accepts demand w e ↔
    ¬ (!e.isWord) = true ∧ ¬ (e.width > w ∨ demand.exact ∧ e.width ≠ w) := by
  constructor
  · rintro ⟨hword, hle, hexact⟩
    refine ⟨by simpa using hword, ?_⟩
    rintro (hlt | ⟨hdemand, hne⟩)
    · omega
    · exact hne (hexact hdemand)
  · rintro ⟨hword, hwidth⟩
    rw [not_or, not_and, not_not] at hwidth
    exact ⟨by simpa using hword, by omega, hwidth.2⟩

theorem words_cons_eq_ok {e : Expr} : words demand w width i (.expr e :: inputs) = .ok es ↔
    Accepts demand w e ∧ ∃ rest, words demand w width (i + 1) inputs = .ok rest ∧ es = e :: rest := by
  rw [words, accepts_iff]
  constructor
  · intro h
    split at h
    · cases h
    · next hword =>
      split at h
      · cases h
      · next hwidth =>
        cases hrest : words demand w width (i + 1) inputs with
        | error err =>
          rw [hrest] at h
          cases h
        | ok rest =>
          rw [hrest] at h
          cases h
          exact ⟨⟨hword, hwidth⟩, rest, rfl, rfl⟩
  · rintro ⟨⟨hword, hwidth⟩, rest, hrest, rfl⟩
    rw [if_neg hword, if_neg hwidth, hrest]

theorem words_eq_ok : words demand w width i inputs = .ok es ↔
    inputs = es.map .expr ∧ ∀ e ∈ es, Accepts demand w e := by
  induction inputs generalizing i es with
  | nil =>
    rw [words, Except.ok.injEq]
    constructor
    · rintro rfl
      simp
    · rintro ⟨h, -⟩
      exact (List.map_eq_nil_iff.mp h.symm).symm
  | cons x inputs ih =>
    cases x with
    | expr e =>
      rw [words_cons_eq_ok]
      constructor
      · rintro ⟨haccepts, rest, hrest, rfl⟩
        obtain ⟨rfl, hall⟩ := ih.mp hrest
        exact ⟨rfl, List.forall_mem_cons.mpr ⟨haccepts, hall⟩⟩
      · rintro ⟨heq, hall⟩
        obtain ⟨e', rest, rfl, hhead, htail⟩ := List.map_eq_cons_iff.mp heq.symm
        cases hhead
        obtain ⟨haccepts, hrest⟩ := List.forall_mem_cons.mp hall
        exact ⟨haccepts, rest, ih.mpr ⟨htail.symm, hrest⟩, rfl⟩
    | _ =>
      rw [words]
      · simp only [reduceCtorEq, false_iff, not_and]
        intro h
        cases es <;> simp at h
      · simp

/-- A number of inputs that a template accepts for as many inputs as there are. -/
structure Counted (demand : Demand) (count : Datum) (n : Nat) : Prop where
  required : ∀ r ∈ demand.required, count.alike (.int r)
  positive : count.magnitude?.any fun x => !x.less (.ofInt 1)
  given : count.alike (.int n)

/-- What is zero is less than one. -/
theorem less_one_of_equal_zero {x : Fraction} (h : x.equal (.ofInt 0) = true) :
    x.less (.ofInt 1) = true := by
  cases x with
  | finite a m e =>
    have hzero : Fraction.signed a (m * twoPow (e - min e 0).toNat) = 0 := by
      simpa [Fraction.equal, Fraction.ofInt, Fraction.aligned, Fraction.signed] using h
    have hpos := twoPow_pos (0 - min e 0).toNat
    have hone : Fraction.signed false (1 * twoPow (0 - min e 0).toNat) =
        twoPow (0 - min e 0).toNat := by simp [Fraction.signed]
    refine decide_eq_true (p := Fraction.signed a (m * twoPow (e - min e 0).toNat) <
      Fraction.signed false (1 * twoPow (0 - min e 0).toNat)) ?_
    rw [hzero, hone]
    omega
  | _ => cases h

/-- At least one input is asked for. -/
theorem Counted.pos {n : Nat} (h : Counted demand count n) : 0 < n := by
  rw [Nat.pos_iff_ne_zero]
  rintro rfl
  obtain ⟨x, hx, hless⟩ : ∃ x, count.magnitude? = some x ∧ (!x.less (.ofInt 1)) = true := by
    simpa [Option.any_eq_true] using h.positive
  have hequal : x.equal (.ofInt 0) = true := by
    have hgiven := h.given
    cases count with
    | bool b =>
      cases hx
      rw [Datum.alike] at hgiven
      · exact hgiven
      all_goals simp
    | int c =>
      cases hx
      rw [Datum.alike] at hgiven
      · exact hgiven
      all_goals simp
    | fraction y =>
      cases hx
      rw [Datum.alike] at hgiven
      · exact hgiven
      all_goals simp
    | _ => cases hx
  rw [less_one_of_equal_zero hequal] at hless
  cases hless

/-- A check that turns down goes no further. -/
theorem check_eq_ok {α β : Type} {b : Bool} {err : Refusal} {f : β → Except Refusal α}
    {rest : Except Refusal α} {a : α} :
    (if (!b) = true then throw err >>= f else rest) = .ok a ↔ b = true ∧ rest = .ok a := by
  cases b with
  | true => simp
  | false =>
    simp only [Bool.not_false, if_true, Bool.false_eq_true, false_and, iff_false]
    nofun

theorem checkInputs_eq_ok : checkInputs demand inputs count width = .ok (es, w) ↔
    Counted demand count inputs.length ∧ width.number? = some (w : Int) ∧ 0 < w ∧
      inputs = es.map .expr ∧ ∀ e ∈ es, Accepts demand w e := by
  have hrest : ((do
      let w ← bitwidth demand.name width
      let es ← words demand w width 0 inputs
      return (es, w) : Except Refusal (List Expr × Nat)) = .ok (es, w)) ↔
        width.number? = some (w : Int) ∧ 0 < w ∧ inputs = es.map .expr ∧
          ∀ e ∈ es, Accepts demand w e := by
    rw [← words_eq_ok (i := 0), ← and_assoc, ← bitwidth_eq_ok demand.name]
    constructor
    · intro h
      obtain ⟨w', hw, h⟩ := bind_eq_ok h
      obtain ⟨es', hes, h⟩ := bind_eq_ok h
      cases h
      exact ⟨hw, hes⟩
    · rintro ⟨hw, hes⟩
      rw [hw]
      show (words demand w width 0 inputs >>= fun es => Except.ok (es, w)) = _
      rw [hes]
      rfl
  have hcounted : Counted demand count inputs.length ↔
      (∀ r, demand.required = some r → count.alike (.int r) = true) ∧
        count.magnitude?.any (fun x => !x.less (.ofInt 1)) = true ∧
          count.alike (.int inputs.length) = true :=
    ⟨fun ⟨h1, h2, h3⟩ => ⟨h1, h2, h3⟩, fun ⟨h1, h2, h3⟩ => ⟨h1, h2, h3⟩⟩
  rw [← hrest, checkInputs, hcounted]
  cases demand.required with
  | none => simp only [check_eq_ok, reduceCtorEq, false_implies, implies_true, true_and, and_assoc]
  | some n => simp only [check_eq_ok, Option.some.injEq, forall_eq', and_assoc]

/-- Inputs that have passed fit the width of the sketch. -/
theorem fits_of_checkInputs (hes : ∀ e ∈ es, e.WellFormed)
    (h : checkInputs demand inputs count width = .ok (es, w)) : 0 < w ∧ ∀ e ∈ es, Fits w e := by
  obtain ⟨-, -, hw, -, haccepts⟩ := checkInputs_eq_ok.mp h
  refine ⟨hw, fun e he => ?_⟩
  have hword := (haccepts e he).word
  have hpositive := (hes e he).positive
  rw [isWord_iff.mp hword] at hpositive
  exact ⟨hword, hpositive, (haccepts e he).le⟩

/-- Inputs that have passed are as wide as the sketch where the template demands that. -/
theorem shape_of_checkInputs (hexact : demand.exact)
    (h : checkInputs demand inputs count width = .ok (es, w)) : ∀ e ∈ es, e.shape = .word w := by
  obtain ⟨-, -, -, -, haccepts⟩ := checkInputs_eq_ok.mp h
  intro e he
  rw [isWord_iff.mp (haccepts e he).word, (haccepts e he).exact hexact]

/-- As many inputs that are accepted pass as well. -/
theorem checkInputs_of_accepts {ys : List Expr}
    (h : checkInputs demand inputs count width = .ok (es, w)) (length : ys.length = es.length)
    (accepts : ∀ y ∈ ys, Accepts demand w y) :
    checkInputs demand (ys.map .expr) count width = .ok (ys, w) := by
  obtain ⟨hcounted, hwidth, hw, rfl, -⟩ := checkInputs_eq_ok.mp h
  rw [List.length_map, ← length] at hcounted
  exact checkInputs_eq_ok.mpr ⟨by rwa [List.length_map], hwidth, hw, rfl, accepts⟩

/-- The inputs that pass are those that were given. -/
theorem eq_of_checkInputs {xs : List Expr}
    (h : checkInputs demand (xs.map .expr) count width = .ok (es, w)) : es = xs := by
  obtain ⟨-, -, -, heq, -⟩ := checkInputs_eq_ok.mp h
  exact (List.map_injective_iff.mpr (fun _ _ => Operand.expr.inj) heq).symm

/-- The width does not depend on the inputs. -/
theorem width_of_checkInputs {demand' : Demand} {inputs' : List Operand} {es' : List Expr} {w' : Nat}
    (h : checkInputs demand inputs count width = .ok (es, w))
    (h' : checkInputs demand' inputs' count width = .ok (es', w')) : w = w' := by
  obtain ⟨-, hw, -⟩ := checkInputs_eq_ok.mp h
  obtain ⟨-, hw', -⟩ := checkInputs_eq_ok.mp h'
  exact Int.ofNat.inj (Option.some.inj (hw.symm.trans hw'))

theorem eq_width_of_checkInputs {w' : Nat} (hwidth : width.number? = some (w : Int))
    (h : checkInputs demand inputs count width = .ok (es, w')) : w = w' :=
  Int.ofNat.inj (Option.some.inj (hwidth.symm.trans (checkInputs_eq_ok.mp h).2.1))

/-- At least one input has passed. -/
theorem ne_nil_of_checkInputs (h : checkInputs demand inputs count width = .ok (es, w)) :
    es ≠ [] := by
  obtain ⟨hcounted, -, -, rfl, -⟩ := checkInputs_eq_ok.mp h
  have hpos := hcounted.pos
  rw [List.length_map] at hpos
  exact List.ne_nil_of_length_pos hpos

/-- An earlier program is of the kind that the template works with, or there is none. -/
theorem expect_eq_ok {α : Type} {name kind : String} {read : Program → Option α}
    {given : Option GivenProgram} {r : Option α} : expect name kind read given = .ok r ↔
      (given = none ∧ r = none) ∨ ∃ g x, given = some (.program g) ∧ read g = some x ∧ r = some x := by
  cases given with
  | none => simp [expect, eq_comm]
  | some g =>
    cases g with
    | other kind => simp [expect]
    | program g =>
      rw [expect]
      cases hread : read g with
      | none => simp [hread]
      | some x => simp [hread, eq_comm]

end CircuitSketch.Template
