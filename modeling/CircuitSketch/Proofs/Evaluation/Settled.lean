import CircuitSketch.Proofs.Evaluation.Denotation
import CircuitSketch.Proofs.Evaluation.HoleBits
import CircuitSketch.Proofs.Evaluation.Locality

/-!
# Evaluation with every hole settled

The holes of a sketch have one bit each. With a truth value for every hole there is always a side to
a choice, so the value of a sketch can be followed node by node. An assignment that covers the holes
of an expression gives the value that its truth values give.
-/
namespace CircuitSketch

/-- Evaluation over truth values, with the standard primitives, where every bit of a hole is a given
truth value. -/
def Context.settled (env : Valuation) (τ : Hole → Bool) : Context Bool where
  input name := env.lookup name
  decision h := some (List.replicate h.width (τ h))
  modules := Primitive.standard

/-- The truth values of holes of one bit. -/
def Assignment.truth (σ : Assignment) (h : Hole) : Bool := decide (σ.number h % 2 = 1)

theorem selectorBit_settled {env : Valuation} {τ : Hole → Bool} {s : Hole} (one : s.width = 1) :
    selectorBit (.settled env τ) s = .ok (τ s) := by
  simp [selectorBit, Context.settled, one]

/-- A hole of one bit that an assignment covers has its truth value. -/
theorem Assignment.bits?_eq_truth {σ : Assignment} {h : Hole} (mem : h ∈ σ) (one : h.width = 1) :
    σ.bits? h = some [σ.truth h] := by
  obtain ⟨value, hvalue⟩ := Option.isSome_iff_exists.mp (Std.HashMap.isSome_getElem?_iff_mem.mpr mem)
  have hnumber : σ.number h = value.toInt := by
    rw [number, hvalue]
    rfl
  have hmod : value.toInt % 2 = 0 ∨ value.toInt % 2 = 1 := by omega
  rw [bits?, hvalue, Option.map_some, one, truth, hnumber, Word.ofInt,
    show (twoPow 1 : Int) = 2 from rfl]
  rcases hmod with hzero | hone
  · rw [hzero]
    rfl
  · rw [hone]
    rfl

/-- Evaluation over truth values, with the standard primitives, in which holes of one bit have given
truth values. Nothing is said about other holes. -/
structure Context.Settles (c : Context Bool) (τ : Hole → Bool) (holes : List Hole) : Prop where
  modules : c.modules = Primitive.standard
  decision : ∀ h ∈ holes, c.decision h = some [τ h]

namespace Context

variable {c : Context Bool} {τ : Hole → Bool} {holes holes' : List Hole}

theorem Settles.mono (h : c.Settles τ holes) (sub : holes' ⊆ holes) : c.Settles τ holes' :=
  ⟨h.modules, fun k hk => h.decision k (sub hk)⟩

theorem Settles.eval_hole (h : c.Settles τ holes) {k : Hole} (hk : k ∈ holes) :
    Expr.eval c (.hole k) = .ok (.word [τ k]) := by
  rw [Expr.eval, h.decision k hk]

theorem settles_settled (env : Valuation) (τ : Hole → Bool) (ones : ∀ h ∈ holes, h.width = 1) :
    (settled env τ).Settles τ holes :=
  ⟨rfl, fun h hh => by simp [settled, ones h hh]⟩

theorem settles_concrete {σ : Assignment} (env : Valuation) (ones : ∀ h ∈ holes, h.width = 1)
    (covers : σ.Covers holes) :
    (concrete env σ Primitive.standard).Settles σ.truth holes :=
  ⟨rfl, fun h hh => Assignment.bits?_eq_truth (covers h hh) (ones h hh)⟩

end Context

namespace Expr

variable {env : Valuation} {τ : Hole → Bool}

/-- A word of one bit that is interpreted as a number evaluates to the bit of this number. -/
theorem eval_bit_of_interpret {e : Expr} {σ : Assignment} {modules : ModuleTable} {b : Bool}
    (hw : e.WellFormed) (hs : e.shape = .word 1) (h : e.interpret env σ modules = .ok b.toNat) :
    eval (.concrete env σ modules) e = .ok (.word [b]) := by
  obtain ⟨bits, hbits, hlen, hnumber⟩ := exists_bits_of_interpret hw h
  have hone : bits.length = [b].length := by rw [hlen, width, hs]; rfl
  obtain rfl : bits = [b] := Word.eq_of_toNat_eq hone (by simpa using hnumber.symm)
  exact hbits

theorem eval_bits_of_interpret {xs : List Expr} {σ : Assignment} {modules : ModuleTable}
    {bits : List Bool} (hw : ∀ x ∈ xs, x.WellFormed) (hs : ∀ x ∈ xs, x.shape = .word 1)
    (h : List.Forall₂ (fun x b => x.interpret env σ modules = .ok b.toNat) xs bits) :
    List.Forall₂ (fun x b => eval (.concrete env σ modules) x = .ok (.word [b])) xs bits :=
  forall₂_of_mem h fun x hx _ hb => eval_bit_of_interpret (hw x hx) (hs x hx) hb

theorem interpret_bit_of_eval {e : Expr} {σ : Assignment} {modules : ModuleTable} {b : Bool}
    (hs : e.shape = .word 1) (h : eval (.concrete env σ modules) e = .ok (.word [b])) :
    e.interpret env σ modules = .ok b.toNat := by
  rw [interpret_of_eval (by rw [isWord, hs]; rfl) h]
  simp

theorem eval_settled_hole {h : Hole} (one : h.width = 1) :
    eval (.settled env τ) (hole h) = .ok (.word [τ h]) := by
  simp [eval, Context.settled, one]

theorem eval_choose_of_bit {c : Context Bool} {t w : Nat} {a b : Expr} {s : Hole} {bit : Bool}
    (h : selectorBit c s = .ok bit) :
    eval c (choose t w a b s) = if bit then eval c b else eval c a := by
  rw [eval, h]
  cases bit <;> rfl

theorem eval_settled_choose {t w : Nat} {a b : Expr} {s : Hole} (one : s.width = 1) :
    eval (.settled env τ) (choose t w a b s) =
      if τ s then eval (.settled env τ) b else eval (.settled env τ) a :=
  eval_choose_of_bit (selectorBit_settled one)

/-- An expression whose holes have one bit and are covered is interpreted as the word that the truth
values of its holes give. -/
theorem interpret_of_eval_settled {e : Expr} {σ : Assignment} {bits : List Bool} (hword : e.isWord)
    (ones : ∀ h ∈ e.holes, h.width = 1) (covers : σ.Covers e.holes)
    (h : eval (.settled env σ.truth) e = .ok (.word bits)) :
    e.interpret env σ Primitive.standard = .ok (Word.toNat bits) := by
  have hagree : (Context.concrete env σ Primitive.standard).AgreeOn (.settled env σ.truth) e := by
    refine ⟨rfl, fun _ _ _ _ _ _ => rfl, fun k hk => ?_⟩
    have hmem := mem_holes.mpr hk
    have hbits := Assignment.bits?_eq_truth (covers k hmem) (ones k hmem)
    simp only [Context.concrete, Context.settled, hbits, ones k hmem, List.replicate_one]
  exact interpret_of_eval hword ((eval_congr hagree).trans h)

/-- The value of an expression without holes does not depend on any truth values. -/
theorem eval_settled_of_interpret {e : Expr} {n : Nat} (hw : e.WellFormed) (closed : e.holes = [])
    (h : e.interpret env ∅ Primitive.standard = .ok n) (τ : Hole → Bool) :
    ∃ bits, eval (.settled env τ) e = .ok (.word bits) ∧ bits.length = e.width ∧
      Word.toNat bits = n := by
  obtain ⟨bits, hbits, hlen, rfl⟩ := exists_bits_of_interpret hw h
  refine ⟨bits, ?_, hlen, rfl⟩
  have hagree : (Context.settled env τ).AgreeOn (.concrete env ∅ Primitive.standard) e := by
    refine ⟨rfl, fun _ _ _ _ _ _ => rfl, fun k hk => ?_⟩
    have hmem := mem_holes.mpr hk
    rw [closed] at hmem
    cases hmem
  exact (eval_congr hagree).trans hbits

section Input

variable {t w : Nat} {name : String}

/-- A variable as an input of a circuit. -/
def input (t : Nat) (name : String) (w : Nat) : Expr := .node t (.var name w) (.word w) []

theorem wellFormed_input (hw : 0 < w) : (input t name w).WellFormed :=
  wellFormed_node.mpr ⟨.var hw, by simp⟩

theorem holes_input : (input t name w).holes = [] := by
  refine List.eq_nil_iff_forall_not_mem.mpr fun k hk => ?_
  have hmem := mem_holes.mp hk
  simp [input, preorder, preorderAll] at hmem

theorem interpret_input {n : Nat} {σ : Assignment} {modules : ModuleTable}
    (value : env.lookup name = some (n : Int)) (fits : n < twoPow w) :
    (input t name w).interpret env σ modules = .ok n := by
  have heval : eval (.concrete env σ modules) (input t name w) = .ok (.word (Word.ofInt w n)) := by
    simp [input, eval, evalAll, Op.eval, Context.concrete, value, wordOf, constants_bool]
  rw [interpret_of_eval rfl heval, Word.toNat_ofInt_natCast, Nat.mod_eq_of_lt fits]

end Input

end Expr
end CircuitSketch
