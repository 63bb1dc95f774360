import CircuitSketch.Platform.Basic
import CircuitSketch.Proofs.Bits.Wiring
import CircuitSketch.Proofs.Evaluation.Shape

/-!
# Operations that always have a value

Variables need a number, operators on numbers need constant operands, and a placed primitive needs
its ports. The operations that remain, and the primitives wired the way platforms wire them, have a
value over every bit algebra whenever their operands have values of the right shapes.
-/
namespace CircuitSketch

/-- An operation on operands that have values. -/
theorem Expr.eval_node_of_args {β : Type} [BitAlgebra β] {c : Context β} {t : Nat} {op : Op}
    {s : Shape} {args : List Expr} {values : List (Value β)}
    (h : List.Forall₂ (fun a v => eval c a = .ok v) args values) :
    eval c (node t op s args) = op.eval c values := by
  rw [eval, evalAll_eq_ok.mpr h]

namespace Op

/-- An operation yields a value from any operands of the given shapes, with the standard
primitives. -/
def Total (op : Op) (shapes : List Shape) : Prop :=
  ∀ {β : Type} [BitAlgebra β] (c : Context β), c.modules = Primitive.standard →
    ∀ args : List (Value β), List.Forall₂ Value.HasShape args shapes → ∃ v, op.eval c args = .ok v

theorem total_const (w n : Nat) : (const w n).Total [] := by
  intro β _ c _ args h
  rw [List.forall₂_nil_right_iff] at h
  subst h
  exact ⟨_, rfl⟩

theorem total_extract (lo hi n : Nat) : (extract lo hi).Total [.word n] := by
  intro β _ c _ args h
  obtain ⟨a, rfl, hs⟩ := Value.exists_operand h
  obtain ⟨b, rfl, -⟩ := hs.exists_word
  exact ⟨_, rfl⟩

theorem total_zeroExtend (w n : Nat) : (zeroExtend w).Total [.word n] := by
  intro β _ c _ args h
  obtain ⟨a, rfl, hs⟩ := Value.exists_operand h
  obtain ⟨b, rfl, -⟩ := hs.exists_word
  exact ⟨_, rfl⟩

theorem total_dupExtend (w n : Nat) : (dupExtend w).Total [.word n] := by
  intro β _ c _ args h
  obtain ⟨a, rfl, hs⟩ := Value.exists_operand h
  obtain ⟨b, rfl, -⟩ := hs.exists_word
  exact ⟨_, rfl⟩

theorem total_concat (ws : List Nat) : concat.Total (ws.map .word) := by
  intro β _ c _ args h
  obtain ⟨words, rfl, -⟩ := Value.exists_words h
  rw [eval, Value.words_map_word]
  exact ⟨_, rfl⟩

theorem total_list (ws : List Nat) : list.Total (ws.map .word) := by
  intro β _ c _ args h
  obtain ⟨words, rfl, -⟩ := Value.exists_words h
  rw [eval, Value.words_map_word]
  exact ⟨_, rfl⟩

theorem total_item {p : Position} {w n : Nat} (lt : p.toNat < n) : (item p).Total [.list w n] := by
  intro β _ c _ args h
  obtain ⟨a, rfl, hs⟩ := Value.exists_operand h
  obtain ⟨items, rfl, rfl, -⟩ := hs.exists_list
  simp only [eval, List.getElem?_eq_getElem lt]
  exact ⟨_, rfl⟩

theorem total_record (keys : List String) (ws : List Nat) : (record keys).Total (ws.map .word) := by
  intro β _ c _ args h
  obtain ⟨words, rfl, -⟩ := Value.exists_words h
  rw [eval, Value.words_map_word]
  exact ⟨_, rfl⟩

theorem total_lookup (w n i : Nat) : lookup.Total [.list w n, .word i] := by
  intro β _ c _ args h
  obtain ⟨a, x, rfl, hs, hx⟩ := Value.exists_operands h
  obtain ⟨items, rfl, -⟩ := hs.exists_list
  obtain ⟨index, rfl, -⟩ := hx.exists_word
  exact ⟨_, rfl⟩

theorem total_output {fields : List (String × Nat)} {key : String} {w : Nat}
    (known : Checked.fieldWidth? fields key = some w) : (output key).Total [.group fields] := by
  intro β _ c _ args h
  obtain ⟨a, rfl, hs⟩ := Value.exists_operand h
  obtain ⟨found, rfl, hfound⟩ := hs.exists_group
  obtain ⟨b, hb, -⟩ := hfound (key, w) (Checked.mem_of_fieldWidth? known)
  simp only [eval, hb]
  exact ⟨_, rfl⟩

variable {β : Type} [BitAlgebra β] {c : Context β}

/-- A placed primitive that is known, runs and produces what it declares has a value. -/
theorem eval_primitive {module : String} {ports : List String} {outputs : List (String × Nat)}
    {words : List (List β)} {p : Primitive} {fields : List (String × List β)}
    (known : c.modules module = some p) (ran : p.run (ports.zip words) = .ok fields)
    (produced : ∀ o ∈ outputs, produces fields o) :
    (primitive module ports outputs).eval c (words.map .word) = .ok (.group fields) := by
  have hfind : (outputs.find? fun o => !produces fields o) = none := by
    rw [List.find?_eq_none]
    intro o ho
    simp [produced o ho]
  rw [eval, Value.words_map_word]
  simp [bind, Except.bind, placed, known, ran, hfind]

/-- A placed lookup table with `size` inputs. -/
def lut (size : Nat) : Op :=
  primitive s!"LUT{size}" (Primitive.lutPorts size) [("O", 1)]

theorem eval_lut (hc : c.modules = Primitive.standard) {bits table : List β}
    (pos : 1 ≤ bits.length) (le : bits.length ≤ 8) (full : table.length = twoPow bits.length) :
    (lut bits.length).eval c ((bits.map (fun b => [b]) ++ [table]).map .word) =
      .ok (.group [("O", bits.foldl (fun t b => Primitive.halve b t) table)]) := by
  refine eval_primitive (p := .lut) (by rw [hc, Primitive.standard_lut pos le])
    (Primitive.runLut_wired full) fun o ho => ?_
  rw [List.mem_singleton] at ho
  simp [ho, produces, Primitive.length_foldl_halve full]

end Op

/-- The primitive that is a block of a chain of a style. -/
def CarryStyle.primitive : CarryStyle → Primitive
  | adder => .carryAdd
  | muxXor => .carryMuxXor

/-- The bits of a chain of a style and its carry out. -/
def CarryStyle.chain {β : Type} [BitAlgebra β] :
    CarryStyle → β → List (β × β) → List β × β
  | adder => Primitive.addChain
  | muxXor => Primitive.muxChain

namespace CarryStyle

variable {β : Type} [BitAlgebra β]

theorem length_chain (style : CarryStyle) (carry : β) (pairs : List (β × β)) :
    (style.chain carry pairs).1.length = pairs.length := by
  cases style with
  | adder => exact Primitive.length_addChain carry pairs
  | muxXor => exact Primitive.length_muxChain carry pairs

/-- A chain in two pieces: the second one goes on with the carry out of the first. -/
theorem chain_append (style : CarryStyle) (carry : β) (low high : List (β × β)) :
    style.chain carry (low ++ high) =
      ((style.chain carry low).1 ++ (style.chain (style.chain carry low).2 high).1,
        (style.chain (style.chain carry low).2 high).2) := by
  cases style with
  | adder => exact Primitive.addChain_append carry low high
  | muxXor => exact Primitive.muxChain_append carry low high

end CarryStyle

namespace Op

/-- A placed block of a carry chain with `w` positions. -/
def carry (style : CarryStyle) (w : Nat) : Op :=
  primitive style.module ["CI", "DI", "S"] [("O", w), ("CO", 1)]

theorem eval_carry {β : Type} [BitAlgebra β] {c : Context β}
    (hc : c.modules = Primitive.standard) (style : CarryStyle) (bit : β) {di s : List β}
    (same : s.length = di.length) :
    (carry style di.length).eval c [.word [bit], .word di, .word s] =
      .ok (.group [("O", (style.chain bit (di.zip s)).1),
        ("CO", [(style.chain bit (di.zip s)).2])]) := by
  have hlen : (style.chain bit (di.zip s)).1.length = di.length := by
    rw [style.length_chain, List.length_zip]
    omega
  have known : c.modules style.module = some style.primitive := by
    rw [hc]
    cases style <;> rfl
  have ran : style.primitive.run (["CI", "DI", "S"].zip [[bit], di, s]) =
      .ok [("O", (style.chain bit (di.zip s)).1), ("CO", [(style.chain bit (di.zip s)).2])] := by
    have hrun := Primitive.runChain_wired style.chain bit di s
    cases style with
    | adder => exact hrun
    | muxXor => exact hrun
  refine eval_primitive known ran fun o ho => ?_
  simp only [List.mem_cons, List.not_mem_nil, or_false] at ho
  rcases ho with rfl | rfl
  · simp [produces, hlen]
  · simp [produces, List.lookup_cons]

/-- Words of one bit each. -/
theorem exists_bits {β : Type} {words : List (List β)} (h : ∀ b ∈ words, b.length = 1) :
    ∃ bits : List β, words = bits.map fun b => [b] := by
  induction words with
  | nil => exact ⟨[], rfl⟩
  | cons w words ih =>
    obtain ⟨bits, rfl⟩ := ih fun b hb => h b (by simp [hb])
    obtain ⟨b, rfl⟩ := List.length_eq_one_iff.mp (h w (by simp))
    exact ⟨b :: bits, rfl⟩

theorem total_lut {size : Nat} (pos : 1 ≤ size) (le : size ≤ 8) :
    (lut size).Total ((List.replicate size 1 ++ [twoPow size]).map .word) := by
  intro β _ c hc args h
  obtain ⟨words, rfl, hwords⟩ := Value.exists_words h
  obtain ⟨inputs, last, rfl, hinputs, hlast⟩ := List.map_eq_append_iff.mp hwords
  obtain ⟨table, rfl, htable⟩ := List.map_eq_singleton_iff.mp hlast
  obtain ⟨bits, rfl⟩ := exists_bits fun b hb =>
    List.eq_of_mem_replicate (hinputs ▸ List.mem_map_of_mem hb)
  have hlen : bits.length = size := by simpa using congrArg List.length hinputs
  subst hlen
  exact ⟨_, eval_lut hc pos le htable⟩

theorem total_carry (style : CarryStyle) (w : Nat) :
    (carry style w).Total [.word 1, .word w, .word w] := by
  intro β _ c hc args h
  obtain ⟨a, rest, ha, hrest, rfl⟩ := List.forall₂_cons_right_iff.mp h
  obtain ⟨d, s, rfl, hd, hs⟩ := Value.exists_operands hrest
  obtain ⟨carry, rfl, hcarry⟩ := ha.exists_word
  obtain ⟨di, rfl, rfl⟩ := hd.exists_word
  obtain ⟨s, rfl, hlen⟩ := hs.exists_word
  obtain ⟨bit, rfl⟩ := List.length_eq_one_iff.mp hcarry
  exact ⟨_, eval_carry hc style bit hlen⟩

end Op
end CircuitSketch
