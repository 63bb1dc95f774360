import CircuitSketch.Proofs.Evaluation.Placed
import CircuitSketch.Proofs.Evaluation.Total
import CircuitSketch.Proofs.Expr.Substitution
import Mathlib.Logic.Relation

/-!
# What an interpretation demands

A choice asks for its selector and, once that is settled, for the chosen side alone; every other
node asks for all of its parts. An interpretation yields a number exactly when everything that is
asked for in this way can be had: variables have numbers, holes have values, and placed primitives
are wired so that they run and produce what they declare. A side that is not chosen is not asked
for, so nothing in it matters, unless it is also asked for from elsewhere.
-/
namespace CircuitSketch

/-- An operation can be had once its operands of some widths have values. -/
def Op.Available (env : Valuation) (widths : List Nat) : Op → Prop
  | .var name _ => (env.lookup name).isSome
  | .primitive module ports outputs =>
    ∃ p, Primitive.standard module = some p ∧ p.Wired (ports.zip widths) outputs
  | _ => True

namespace Expr

/-- The nodes that a node asks for. -/
def asksFor (σ : Assignment) : Expr → List Expr
  | choose _ _ a b s =>
    match σ[s]? with
    | some value => [hole s, side value s a b]
    | none => [hole s]
  | e => e.children

/-- A node that is asked for in the course of an interpretation. -/
def Demands (σ : Assignment) : Expr → Expr → Prop :=
  Relation.ReflTransGen fun x y => y ∈ x.asksFor σ

/-- A node can be had once what it asks for has values. -/
def Available (env : Valuation) (σ : Assignment) : Expr → Prop
  | hole h => h ∈ σ
  | node _ op _ args => op.Available env (args.map width)
  | choose .. => True

/-- Everything that is asked for is the expression itself and what is asked for from there. -/
theorem forall_demands_iff {σ : Assignment} {e : Expr} {P : Expr → Prop} :
    (∀ x, Demands σ e x → P x) ↔ P e ∧ ∀ y ∈ e.asksFor σ, ∀ x, Demands σ y x → P x := by
  constructor
  · intro h
    exact ⟨h e .refl, fun y hy x hx => h x (.head hy hx)⟩
  · rintro ⟨he, hrest⟩ x hx
    rcases Relation.ReflTransGen.cases_head hx with rfl | ⟨y, hy, hyx⟩
    · exact he
    · exact hrest y hy x hyx

end Expr

namespace Op

variable {β : Type}

/-- A placed primitive has a value exactly when it is wired so that it runs and produces what it
declares. -/
theorem exists_eval_primitive_iff [BitAlgebra β] {c : Context β}
    (hc : c.modules = Primitive.standard) {module : String} {ports : List String}
    {outputs : List (String × Nat)} {words : List (List β)}
    (pos : ∀ b ∈ words, b ≠ []) (env : Valuation) :
    (∃ v, (primitive module ports outputs).eval c (words.map .word) = .ok v) ↔
      (primitive module ports outputs).Available env (words.map List.length) := by
  have hpos : ∀ q ∈ ports.zip words, q.2 ≠ [] := fun q hq => pos q.2 (List.of_mem_zip hq).2
  have hwidths : Primitive.widths (ports.zip words) = ports.zip (words.map List.length) := by
    rw [Primitive.widths, List.zip_map_right]
    rfl
  constructor
  · rintro ⟨v, hv⟩
    obtain ⟨p, fields, hp, hrun, hproduced, -⟩ := placed_eq_ok (Value.of_bind_words hv)
    rw [hc] at hp
    exact ⟨p, hp, hwidths ▸ (Primitive.run_iff hp hpos outputs).mp ⟨fields, hrun, hproduced⟩⟩
  · rintro ⟨p, hp, hwired⟩
    obtain ⟨fields, hrun, hproduced⟩ := (Primitive.run_iff hp hpos outputs).mpr (hwidths ▸ hwired)
    exact ⟨_, eval_primitive (by rw [hc, hp]) hrun hproduced⟩

/-- Over truth values an operation on operands of fitting shapes has a value exactly when it can be
had. -/
theorem Typed.exists_eval_iff {op : Op} {args : List Expr} {s : Shape} {env : Valuation}
    {σ : Assignment} {values : List (Value Bool)} (ht : op.Typed (args.map Expr.shape) s)
    (hpos : ∀ a ∈ args, a.shape.Positive)
    (hvalues : List.Forall₂ (fun a v => Value.HasShape v a.shape) args values) :
    (∃ v, op.eval (.concrete env σ Primitive.standard) values = .ok v) ↔
      op.Available env (args.map Expr.width) := by
  have hshapes : List.Forall₂ Value.HasShape values (args.map Expr.shape) :=
    List.forall₂_map_right_iff.mpr hvalues.flip
  have htotal (h : op.Total (args.map Expr.shape)) :
      ∃ v, op.eval (.concrete env σ Primitive.standard) values = .ok v :=
    h (.concrete env σ Primitive.standard) rfl values hshapes
  generalize hargs : args.map Expr.shape = shapes at ht hshapes htotal
  cases ht with
  | const => exact iff_of_true (htotal (total_const _ _)) trivial
  | @var name w pos =>
    obtain rfl := List.forall₂_nil_right_iff.mp hshapes
    have hinput : (Context.concrete env σ Primitive.standard).input name = env.lookup name := rfl
    rw [eval, hinput, Available]
    cases env.lookup name <;> simp
  | extract => exact iff_of_true (htotal (total_extract _ _ _)) trivial
  | concat => exact iff_of_true (htotal (total_concat _)) trivial
  | zeroExtend => exact iff_of_true (htotal (total_zeroExtend _ _)) trivial
  | dupExtend => exact iff_of_true (htotal (total_dupExtend _ _)) trivial
  | @list w n pos =>
    rw [← List.map_replicate] at htotal
    exact iff_of_true (htotal (total_list _)) trivial
  | item lt => exact iff_of_true (htotal (total_item lt)) trivial
  | lookup => exact iff_of_true (htotal (total_lookup _ _ _)) trivial
  | record => exact iff_of_true (htotal (total_record _ _)) trivial
  | @primitive module ports outputs ws length pos =>
    obtain ⟨words, rfl, rfl⟩ := Value.exists_words hshapes
    obtain ⟨-, hwidths⟩ := Expr.words_of_map_shape hargs
    have hne : ∀ b ∈ words, b ≠ [] := by
      rintro b hb rfl
      have hmem : Shape.word 0 ∈ args.map Expr.shape := by
        rw [hargs]
        exact List.mem_map_of_mem (List.mem_map_of_mem hb)
      obtain ⟨a, ha, hzero⟩ := List.mem_map.mp hmem
      exact absurd (hzero ▸ hpos a ha : (Shape.word 0).Positive) (Nat.lt_irrefl 0)
    rw [exists_eval_primitive_iff rfl hne env, hwidths]
  | output known => exact iff_of_true (htotal (total_output known)) trivial
  | @binary op n =>
    obtain ⟨u, v, rfl, hu, hv⟩ := Value.exists_operands hshapes
    obtain ⟨x, rfl, -⟩ := hu.exists_word
    obtain ⟨y, rfl, -⟩ := hv.exists_word
    refine iff_of_true ?_ trivial
    rw [eval, operandNumber, operandNumber, constants?_bool, constants?_bool]
    exact ⟨_, rfl⟩
  | @unary op n =>
    obtain ⟨u, rfl, hu⟩ := Value.exists_operand hshapes
    obtain ⟨x, rfl, -⟩ := hu.exists_word
    refine iff_of_true ?_ trivial
    rw [eval, operandNumber, constants?_bool]
    exact ⟨_, rfl⟩

end Op

namespace Expr

/-- An expression has a value exactly when everything that is asked for can be had. -/
theorem exists_eval_iff {e : Expr} (hw : e.WellFormed) (env : Valuation) (σ : Assignment) :
    (∃ v, eval (.concrete env σ Primitive.standard) e = .ok v) ↔
      ∀ x, Demands σ e x → x.Available env σ := by
  have hc := sized_concrete env σ Primitive.standard
  induction e using Expr.induction with
  | hole h =>
    rw [forall_demands_iff, eval]
    simp only [asksFor, children_hole, List.not_mem_nil, false_imp_iff, implies_true, and_true,
      Available, ← Std.HashMap.isSome_getElem?_iff_mem]
    have hbits : (Context.concrete env σ Primitive.standard).decision h =
        σ[h]?.map fun value => Word.ofInt h.width value.toInt := rfl
    rw [hbits]
    cases σ[h]? <;> simp
  | node t op s args ih =>
    obtain ⟨ht, hargs⟩ := wellFormed_node.mp hw
    have hpos : ∀ a ∈ args, a.shape.Positive := fun a ha => (hargs a ha).positive
    have hshapes {values : List (Value Bool)}
        (hvalues : evalAll (.concrete env σ Primitive.standard) args = .ok values) :=
      forall₂_of_mem (evalAll_eq_ok.mp hvalues) fun a ha v hv => eval_hasShape hc (hargs a ha) hv
    have hall : (∃ values, evalAll (.concrete env σ Primitive.standard) args = .ok values) ↔
        ∀ a ∈ args, ∀ x, Demands σ a x → x.Available env σ := by
      rw [exists_evalAll_iff]
      exact forall₂_congr fun a ha => ih a ha (hargs a ha)
    rw [forall_demands_iff]
    constructor
    · rintro ⟨v, hv⟩
      obtain ⟨values, hvalues, hv⟩ := eval_node_eq_ok hv
      exact ⟨(ht.exists_eval_iff hpos (hshapes hvalues)).mp ⟨v, hv⟩, hall.mp ⟨values, hvalues⟩⟩
    · rintro ⟨hself, hrest⟩
      obtain ⟨values, hvalues⟩ := hall.mpr hrest
      obtain ⟨v, hv⟩ := (ht.exists_eval_iff hpos (hshapes hvalues)).mpr hself
      exact ⟨v, by rw [eval, hvalues]; exact hv⟩
  | choose t w a b s iha ihb =>
    obtain ⟨⟨-, -, one⟩, hwa, hwb⟩ := wellFormed_choose.mp hw
    have hselector : (∀ x, Demands σ (hole s) x → x.Available env σ) ↔ s ∈ σ := by
      rw [forall_demands_iff]
      simp [asksFor, Available]
    rw [forall_demands_iff, asksFor]
    cases hvalue : σ[s]? with
    | none =>
      have hopen : s ∉ σ := by simp [← Std.HashMap.isSome_getElem?_iff_mem, hvalue]
      refine iff_of_false ?_ fun h => hopen (hselector.mp (h.2 (hole s) (by simp)))
      rintro ⟨v, hv⟩
      obtain ⟨bit, hbit, -⟩ := eval_choose_eq_ok hv
      obtain ⟨value, hsome, -⟩ := Option.map_eq_some_iff.mp (selectorBit_eq_ok hc one hbit)
      rw [hvalue] at hsome
      cases hsome
    | some value =>
      have hmem : s ∈ σ := by simp [← Std.HashMap.isSome_getElem?_iff_mem, hvalue]
      have hside : (∃ v, eval (.concrete env σ Primitive.standard) (side value s a b) = .ok v) ↔
          ∀ x, Demands σ (side value s a b) x → x.Available env σ := by
        rw [side]
        split
        · exact iha hwa
        · exact ihb hwb
      rw [eval_choose_of_settled one hvalue, hside]
      simp only [List.mem_cons, List.not_mem_nil, or_false, forall_eq_or_imp, forall_eq, hselector]
      exact ⟨fun h => ⟨trivial, hmem, h⟩, fun h => h.2.2⟩

/-- A word is interpreted as a number exactly when everything that the interpretation asks for can
be had. -/
theorem interpret_succeeds_iff {e : Expr} (hw : e.WellFormed) (word : e.isWord) (env : Valuation)
    (σ : Assignment) : (∃ n, e.interpret env σ Primitive.standard = .ok n) ↔
      ∀ x, Demands σ e x → x.Available env σ := by
  rw [← exists_eval_iff hw]
  constructor
  · rintro ⟨n, hn⟩
    obtain ⟨bits, hbits, -⟩ := exists_bits_of_interpret hw hn
    exact ⟨_, hbits⟩
  · rintro ⟨v, hv⟩
    have hshape := eval_hasShape (sized_concrete env σ Primitive.standard) hw hv
    rw [isWord_iff.mp word] at hshape
    obtain ⟨bits, rfl, -⟩ := hshape.exists_word
    exact ⟨_, interpret_of_eval word hv⟩

/-- A choice that is settled for a variable with a number; the module on its other side is unknown,
and so is the variable there. -/
theorem interpret_succeeds_iff_choice :
    let s : Hole := ⟨5, 1, none⟩
    let block := node 1 (.primitive "DSP" ["A"] [("P", 2)]) (.group [("P", 2)])
      [node 0 (.var "y" 2) (.word 2) []]
    let x := node 3 (.var "x" 2) (.word 2) []
    let e := choose 4 2 x (node 2 (.output "P") (.word 2) [block]) s
    let σ : Assignment := Std.HashMap.insert ∅ s (.number 0)
    e.WellFormed ∧ e.isWord ∧ e.interpret [("x", 3)] σ Primitive.standard = .ok 3 ∧
      ¬ Demands σ e block := by
  intro s block x e σ
  have hw : e.WellFormed := by
    have hx : (Op.var "x" 2).Typed [] (.word 2) := .var (by decide)
    have hy : (Op.var "y" 2).Typed [] (.word 2) := .var (by decide)
    have hblock : (Op.primitive "DSP" ["A"] [("P", 2)]).Typed ([2].map .word) (.group [("P", 2)]) :=
      .primitive rfl (by decide)
    have houtput : (Op.output "P").Typed [.group [("P", 2)]] (.word 2) := .output rfl
    simpa [e, x, block, s, hx, hy, houtput] using hblock
  have hn : e.interpret [("x", 3)] σ Primitive.standard = .ok 3 := by
    have hvalue : σ[s]? = some (.number 0) := Std.HashMap.getElem?_insert_self
    have heval : eval (.concrete [("x", 3)] σ Primitive.standard) e = .ok (.word [true, true]) := by
      rw [eval_choose_of_settled rfl hvalue]
      rfl
    exact interpret_of_eval rfl heval
  refine ⟨hw, rfl, hn, fun hdemands => ?_⟩
  obtain ⟨p, hp, -⟩ := (interpret_succeeds_iff hw rfl _ _).mp ⟨3, hn⟩ block hdemands
  cases hp

end Expr
end CircuitSketch
