import CircuitSketch.Proofs.Evaluation.HoleBits

/-!
# Where symbolic and concrete evaluation agree

An expression evaluates symbolically to conditions on the bits of its holes, and concretely to a
number once the holes have values. The conditions should describe the number for every choice of
values. They do when no list has more items than the words that read it have values. The symbolic
lookup compares an index with the low bits of each position only, so past that length it takes an
item from the end of the list where the concrete lookup takes one from its head.
-/
namespace CircuitSketch

namespace Expr

/-- The symbolic word of an expression describes what the expression is interpreted as, whatever
the values of its holes. -/
def AgreesSymbolically (e : Expr) (modules : ModuleTable) : Prop :=
  ∀ env bits,
    e.evaluate (Solve.symbolic env (Std.HashMap.ofList (Solve.numberBits 0 e.holes)) modules) =
      .ok (.word bits) →
    ∀ σ : Assignment, σ.Covers e.holes →
      e.interpret env σ modules =
        .ok (Word.toNat (bits.map (Condition.holds (σ.decisions e.holes))))

theorem agreesSymbolically_of_listsFit {e : Expr} (hw : e.WellFormed) (hword : e.isWord)
    (fits : e.ListsFit) (modules : ModuleTable) : e.AgreesSymbolically modules := by
  intro env bits h σ hσ
  rw [evaluate_eq_eval] at h
  have hreads := (Solve.decides_decisions hσ).reads env modules e.nodup_holes
  have hread := Condition.laws.isReading (σ.decisions e.holes)
  have heval := eval_read hread (Solve.sized_symbolic _ _ _) hreads hw fits h
  exact interpret_of_eval hword heval

/-- A constant of one bit. -/
def bitNode (b : Bool) : Expr := node b.toNat (.const 1 b.toNat) (.word 1) []

/-- A list of `n` bits, zero at the positions that an index of `k` bits can hold and one at the
others, read by a hole of `k` bits. -/
def overlongLookup (n k : Nat) : Expr :=
  node 4 .lookup (.word 1)
    [node 3 .list (.list 1 n) ((List.range n).map fun p => bitNode (twoPow k ≤ p)),
      hole ⟨2, k, none⟩]

theorem wellFormed_overlongLookup {n k : Nat} (hn : 0 < n) (hk : 0 < k) :
    (overlongLookup n k).WellFormed := by
  have hbit (b : Bool) : (bitNode b).WellFormed := by
    rw [bitNode, wellFormed_node]
    exact ⟨.const Nat.one_pos (Bool.toNat_lt b), by simp⟩
  have hshapes : ((List.range n).map fun p => bitNode (twoPow k ≤ p)).map shape =
      List.replicate n (.word 1) := by
    rw [List.map_map]
    exact List.map_const' |>.trans (by simp)
  rw [overlongLookup, wellFormed_node]
  refine ⟨.lookup, ?_⟩
  simp only [List.mem_cons, List.not_mem_nil, or_false, forall_eq_or_imp, forall_eq,
    wellFormed_node, wellFormed_hole, hshapes, List.mem_map]
  refine ⟨⟨.list hn, ?_⟩, hk⟩
  rintro a ⟨p, -, rfl⟩
  exact hbit _

theorem looksUp_overlongLookup {Allowed : Nat → Nat → Prop} {n k : Nat} (h : Allowed n k) :
    (overlongLookup n k).LooksUp Allowed := by
  intro t s items index w m j hmem hlist hword
  simp [overlongLookup, bitNode] at hmem
  obtain ⟨-, -, rfl, rfl⟩ := hmem
  simp only [shape_node, shape_hole, Shape.list.injEq, Shape.word.injEq] at hlist hword
  obtain ⟨-, rfl⟩ := hlist
  exact hword ▸ h

theorem evalAll_map {β : Type} [BitAlgebra β] {c : Context β} {ps : List Nat} {g : Nat → Expr}
    {value : Nat → Value β} (h : ∀ p, eval c (g p) = .ok (value p)) :
    evalAll c (ps.map g) = .ok (ps.map value) := by
  rw [evalAll_eq_ok, List.forall₂_map_left_iff, List.forall₂_map_right_iff]
  exact List.forall₂_same.mpr fun p _ => h p

/-- The items of the lookup past its index: zero at the positions that the index can hold. -/
def overlongItems (β : Type) [BitAlgebra β] (n k : Nat) : List (List β) :=
  (List.range n).map fun p => [BitAlgebra.const (decide (twoPow k ≤ p))]

theorem eval_overlongLookup {β : Type} [BitAlgebra β] {c : Context β} {n k : Nat}
    {index : List β} (h : c.decision ⟨2, k, none⟩ = some index) :
    eval c (overlongLookup n k) = .ok (.word (lookupItem (overlongItems β n k) index)) := by
  have hbit (b : Bool) : eval c (bitNode b) = .ok (.word [BitAlgebra.const b]) := by
    cases b <;> rfl
  have hitems : evalAll c ((List.range n).map fun p => bitNode (twoPow k ≤ p)) =
      .ok ((overlongItems β n k).map .word) := by
    rw [overlongItems, List.map_map]
    exact evalAll_map fun p => hbit (twoPow k ≤ p)
  have hlist : eval c (node 3 .list (.list 1 n) ((List.range n).map fun p =>
      bitNode (twoPow k ≤ p))) = .ok (.list (overlongItems β n k)) := by
    rw [eval, hitems]
    simp only [Op.eval, Value.words_map_word]
    rfl
  have hhole : eval c (hole ⟨2, k, none⟩) = .ok (.word index) := by rw [eval, h]
  have hargs := evalAll_eq_ok.mpr (.cons hlist (.cons hhole .nil))
  rw [overlongLookup, eval, hargs]
  rfl

/-- Below a number there is a last multiple of any smaller one. -/
theorem exists_last_multiple {m n : Nat} (hm : 0 < m) (hn : m < n) :
    ∃ p, p % m = 0 ∧ m ≤ p ∧ p < n ∧ ∀ q, p < q → q < n → q % m ≠ 0 := by
  have hdiv : 1 ≤ (n - 1) / m := (Nat.one_le_div_iff hm).mpr (by omega)
  have hmul : m * ((n - 1) / m) ≤ n - 1 := Nat.mul_div_le _ _
  refine ⟨m * ((n - 1) / m), Nat.mul_mod_right _ _, Nat.le_mul_of_pos_right _ hdiv, by omega, ?_⟩
  intro q hq hlt hmod
  have hqm := Nat.mul_div_cancel' (Nat.dvd_of_mod_eq_zero hmod)
  have hle := Nat.mul_le_mul_left m (Nat.div_le_div_right (c := m) (show q ≤ n - 1 by omega))
  omega

/-- Concretely an index of zeros takes the first item. -/
theorem lookupItem_overlong {n k : Nat} {index : List Bool} (hn : 0 < n)
    (hzero : Word.toNat index = 0) : lookupItem (overlongItems Bool n k) index = [false] := by
  have hpos := twoPow_pos k
  obtain ⟨m, rfl⟩ : ∃ m, n = m + 1 := ⟨n - 1, by omega⟩
  rw [lookupItem, constants?_bool]
  simp [hzero, overlongItems, List.range_succ_eq_map, BitAlgebra.const, hpos.ne']

/-- Symbolically an index of zeros takes the last item at a multiple of what the index can count. It
is one when the list is too long. -/
theorem map_lookupItem_overlong {τ : Nat → Bool} {n k : Nat} {index : List Condition}
    (hlen : index.length = k) (hfree : BitAlgebra.constants? index = none)
    (hzero : Word.toNat (index.map (Condition.holds τ)) = 0) (hn : twoPow k < n) :
    (lookupItem (overlongItems Condition n k) index).map (Condition.holds τ) = [true] := by
  have hf := Condition.laws.isReading τ
  obtain ⟨p, hmod, hge, hlt, hlast⟩ := exists_last_multiple (twoPow_pos k) hn
  have hread : (overlongItems Condition n k).map (List.map (Condition.holds τ)) =
      overlongItems Bool n k := by
    simp only [overlongItems, List.map_map, Function.comp_def, List.map_cons, List.map_nil,
      hf.const]
  have hsame : ∀ b ∈ overlongItems Bool n k, b.length = 1 := by simp [overlongItems]
  have hitems : (overlongItems Bool n k).length = n := by simp [overlongItems]
  have hmatch : ∀ q, Condition.holds τ (holdsPosition index q) ↔ q % twoPow k = 0 := by
    intro q
    rw [hf.holdsPosition_iff, hzero, hlen]
    exact eq_comm
  have hnone : ∀ q, p < q → q < 0 + (overlongItems Bool n k).length →
      Condition.holds τ (holdsPosition index q) = false := by
    intro q hq hqn
    rw [hitems, Nat.zero_add] at hqn
    rw [← Bool.not_eq_true, hmatch q]
    exact hlast q hq hqn
  have hzlen : ((List.replicate ((overlongItems Condition n k).headD []).length
      (BitAlgebra.const false)).map (Condition.holds τ)).length = 1 := by
    have hhead : (overlongItems Condition n k).headD [] =
        [BitAlgebra.const (decide (twoPow k ≤ 0))] := by
      obtain ⟨m, rfl⟩ : ∃ m, n = m + 1 := ⟨n - 1, by omega⟩
      simp [overlongItems, List.range_succ_eq_map]
    rw [hhead]
    simp
  have hfold := foldl_select_of_last (fun q => Condition.holds τ (holdsPosition index q)) _ hsame 0
    _ hzlen ((hmatch p).mpr hmod) (Nat.zero_le p) (by omega) hnone
  rw [lookupItem, hfree]
  simp only [hf.map_foldl_select, hread, hfold]
  simp [overlongItems, hlt, hge, BitAlgebra.const]

/-- Past the length that the index can hold, the two evaluations differ at the index zero. -/
theorem not_agreesSymbolically_overlongLookup {n k : Nat} (hk : 0 < k) (hn : twoPow k < n)
    (modules : ModuleTable) : ¬ (overlongLookup n k).AgreesSymbolically modules := by
  intro h
  let e := overlongLookup n k
  let x : Hole := ⟨2, k, none⟩
  let σ : Assignment := Assignment.ofList (Assignment.fill e.holes (.number 0))
  have hx : x ∈ e.holes := mem_holes.mpr (by simp [e, x, overlongLookup])
  have hvalue : ∀ y ∈ e.holes, σ[y]? = some (.number 0) := by
    intro y hy
    have hkeys : ((Assignment.fill e.holes (.number 0)).map (·.1)).Nodup := by
      simpa [Assignment.fill, Function.comp_def] using e.nodup_holes
    exact (Assignment.getElem?_ofList hkeys).mpr (List.mem_map_of_mem hy)
  have hσ : σ.Covers e.holes := fun y hy =>
    Std.HashMap.isSome_getElem?_iff_mem.mp (by rw [hvalue y hy]; rfl)
  have hbits : σ.bits? x = some (Word.ofInt k 0) := by
    rw [Assignment.bits?, hvalue x hx]
    rfl
  have hzero : Word.toNat (Word.ofInt k 0) = 0 := by simp [Word.toNat_ofInt]
  have hconcrete : e.interpret [] σ modules = .ok 0 := by
    have heval := eval_overlongLookup (c := .concrete [] σ modules) (n := n) hbits
    rw [lookupItem_overlong (by omega) hzero] at heval
    exact interpret_of_eval rfl heval
  obtain ⟨start, hstart, hdecision⟩ :=
    Solve.exists_symbolic_decision [] modules e.nodup_holes hx
  have hfree : BitAlgebra.constants?
      ((List.range k).map fun i => Condition.decision (start + i)) = none := by
    obtain ⟨m, rfl⟩ : ∃ m, k = m + 1 := ⟨k - 1, by omega⟩
    rw [List.range_succ_eq_map, List.map_cons, BitAlgebra.constants?, List.mapM_cons,
      Condition.laws.constant?_decision]
    rfl
  have hindex : Word.toNat (((List.range k).map fun i => Condition.decision (start + i)).map
      (Condition.holds (σ.decisions e.holes))) = 0 := by
    have hread := Solve.decides_decisions hσ x start hstart
    rw [hbits, Option.some.injEq] at hread
    rw [← hzero, hread, List.map_map]
    simp only [Function.comp_def, Condition.laws.holds_decision, x]
  have heval := eval_overlongLookup (n := n) hdecision
  rw [← evaluate_eq_eval] at heval
  have hsymbolic := h [] _ heval σ hσ
  rw [map_lookupItem_overlong (by simp) hfree hindex hn, hconcrete] at hsymbolic
  cases hsymbolic

/-- Symbolic and concrete evaluation agree on all expressions whose lists have allowed lengths
exactly when no allowed list has more items than the words that read it have values. -/
theorem agreesSymbolically_iff (Allowed : Nat → Nat → Prop) (modules : ModuleTable) :
    (∀ e : Expr, e.WellFormed → e.isWord → e.LooksUp Allowed → e.AgreesSymbolically modules) ↔
      ∀ n k, 0 < k → Allowed n k → n ≤ twoPow k := by
  constructor
  · intro h n k hk hallowed
    by_contra hgt
    have hn : twoPow k < n := by omega
    have hpos := twoPow_pos k
    exact not_agreesSymbolically_overlongLookup hk hn modules
      (h _ (wellFormed_overlongLookup (by omega) hk) rfl (looksUp_overlongLookup hallowed))
  · intro h e hw hword hlooks
    refine agreesSymbolically_of_listsFit hw hword ?_ modules
    intro t s items index w n k hmem hlist hindex
    have hk : 0 < k := by
      have hpos := ((wellFormed_node.mp (hw.of_mem hmem)).2 index (by simp)).positive
      rwa [hindex] at hpos
    exact h n k hk (hlooks t s items index w n k hmem hlist hindex)

/-- Three items read by one bit: the bit zero stands for the first item, and the conditions for the
last. -/
theorem not_agreesSymbolically_threeItems :
    (overlongLookup 3 1).WellFormed ∧
      ¬ (overlongLookup 3 1).AgreesSymbolically Primitive.standard :=
  ⟨wellFormed_overlongLookup (by decide) (by decide),
    not_agreesSymbolically_overlongLookup (by decide) (by decide) _⟩

end Expr
end CircuitSketch
