import CircuitSketch.Proofs.Evaluation.HoleBits

/-!
# Values have the declared widths

Widths are declared when a node is made, and bits are computed when it is evaluated. Nothing is lost
in between: whatever the module names stand for, over truth values and over conditions, the value of
a node has the bits that the node declares. Wherever evaluation takes two words side by side, bit by
bit, they are therefore of one length, so that no bit is dropped unnoticed.
-/
namespace CircuitSketch

variable {β : Type}

/-- A value has the bits that a node declares: one word of the width of its item for every item of a
list, a word of its width under every name of a record or of a placed primitive, and one word of the
width of the node for every other node. -/
def Value.Declared (v : Value β) : Expr → Prop
  | .node _ .list _ items =>
    ∃ words, v = .list words ∧ List.Forall₂ (fun bits item => bits.length = item.width) words items
  | .node _ (.record keys) _ args =>
    ∃ fields, v = .group fields ∧
      ∀ f ∈ keys.zip args, ∃ bits, fields.lookup f.1 = some bits ∧ bits.length = f.2.width
  | .node _ (.primitive _ _ outputs) _ _ =>
    ∃ fields, v = .group fields ∧
      ∀ o ∈ outputs, ∃ bits, fields.lookup o.1 = some bits ∧ bits.length = o.2
  | x => ∃ bits, v = .word bits ∧ bits.length = x.width

namespace Value

theorem declared_of_word {v : Value β} {x : Expr} {w : Nat} (hs : x.shape = .word w)
    (h : v.HasShape x.shape) : ∃ bits, v = .word bits ∧ bits.length = x.width := by
  rw [hs] at h
  rw [Expr.width_of_shape hs]
  exact h.exists_word

/-- The shape that the rule gives to a node says what the node declares. -/
theorem declared_of_hasShape {v : Value β} {x : Expr} (ht : x.Typed) (h : v.HasShape x.shape) :
    v.Declared x := by
  cases x with
  | hole k => exact declared_of_word (Expr.shape_hole k) h
  | choose t w a b s => exact declared_of_word (Expr.shape_choose t w a b s) h
  | node t op s args =>
    rw [Expr.shape_node] at h
    rw [Expr.Typed] at ht
    generalize hargs : args.map Expr.shape = shapes at ht
    cases ht with
    | @list w n pos =>
      obtain ⟨words, rfl, hlen, hwords⟩ := h.exists_list
      have hsize : args.length = n := by simpa using congrArg List.length hargs
      have hitems : ∀ a ∈ args, a.width = w := fun a ha => Expr.width_of_shape <|
        List.eq_of_mem_replicate (hargs ▸ List.mem_map_of_mem ha)
      refine ⟨words, rfl, List.forall₂_iff_zip.mpr ⟨hlen.trans hsize.symm, fun hmem => ?_⟩⟩
      rw [hwords _ (List.of_mem_zip hmem).1, hitems _ (List.of_mem_zip hmem).2]
    | @record keys ws nodup length =>
      obtain ⟨fields, rfl, hfields⟩ := h.exists_group
      obtain ⟨-, hwidths⟩ := Expr.words_of_map_shape hargs
      refine ⟨fields, rfl, fun f hf => hfields (f.1, f.2.width) ?_⟩
      rw [← hwidths, List.zip_map_right]
      exact List.mem_map_of_mem (f := fun p : String × Expr => (p.1, p.2.width)) hf
    | primitive length pos => exact h.exists_group
    | _ => exact declared_of_word rfl h

end Value

variable [BitAlgebra β]

/-- What items come to, starting from a word, when one after the other is put in its place under the
condition that an index holds the position of the item. -/
def weighed (index start : List β) (items : List (List β)) : List β :=
  items.zipIdx.foldl
    (fun result item => BitAlgebra.select (holdsPosition index item.2) result item.1) start

/-- An index that is not constant weighs all items. -/
theorem lookupItem_eq_weighed {items : List (List β)} {index : List β}
    (free : BitAlgebra.constants? index = none) :
    lookupItem items index =
      weighed index (List.replicate (items.headD []).length (BitAlgebra.const false)) items := by
  simp only [lookupItem, free]
  rfl

/-- The next item is taken side by side with what the items before it have come to. -/
theorem weighed_append (index start item : List β) (items : List (List β)) :
    weighed index start (items ++ [item]) =
      BitAlgebra.select (holdsPosition index items.length) (weighed index start items) item := by
  simp [weighed, List.zipIdx_append]

theorem length_weighed {w : Nat} {start : List β} (index : List β) (hstart : start.length = w)
    {items : List (List β)} (same : ∀ b ∈ items, b.length = w) :
    (weighed index start items).length = w :=
  length_foldl_select _ _ (fun _ hi => same _ (List.fst_mem_of_mem_zipIdx hi)) _ hstart

namespace Expr

/-- The words that evaluation takes side by side at a node: the two sides of a choice, and where an
item is looked up every item with what the items before it have come to. -/
def paired (c : Context β) : Expr → List (List β × List β)
  | choose _ _ a b _ =>
    match a.evaluate c, b.evaluate c with
    | .ok (.word x), .ok (.word y) => [(x, y)]
    | _, _ => []
  | node _ .lookup _ [l, i] =>
    match l.evaluate c, i.evaluate c with
    | .ok (.list items), .ok (.word index) =>
      items.zipIdx.map fun item =>
        (item.1, weighed index (List.replicate (items.headD []).length (BitAlgebra.const false))
          (items.take item.2))
    | _, _ => []
  | _ => []

theorem length_paired {c : Context β} (hc : c.Sized) {x : Expr} (hw : x.WellFormed)
    {p : List β × List β} (hp : p ∈ x.paired c) : p.1.length = p.2.length := by
  unfold paired at hp
  split at hp
  · next t w a b s =>
    obtain ⟨⟨ha, hb, -⟩, hwa, hwb⟩ := wellFormed_choose.mp hw
    split at hp
    · next x y hx hy =>
      rw [evaluate_eq_eval] at hx hy
      rw [List.mem_singleton.mp hp, length_of_eval hc hwa ha hx, length_of_eval hc hwb hb hy]
    · cases hp
  · next t s l i =>
    obtain ⟨ht, hargs⟩ := wellFormed_node.mp hw
    have hl : l.WellFormed := hargs l (by simp)
    split at hp
    · next items index hitems hindex =>
      obtain ⟨w, n, hshape⟩ : ∃ w n, l.shape = .list w n := by
        generalize hs : [l, i].map shape = shapes at ht
        cases ht with
        | lookup => exact ⟨_, _, (List.cons.inj hs).1⟩
      rw [evaluate_eq_eval] at hitems
      have hsame := eval_hasShape hc hl hitems
      rw [hshape] at hsame
      obtain ⟨item, hmem, rfl⟩ := List.mem_map.mp hp
      have hitem : item.1 ∈ items := List.fst_mem_of_mem_zipIdx hmem
      have hhead := length_headD (List.ne_nil_of_mem hitem) hsame.2
      have hstart : (List.replicate (items.headD []).length
          (BitAlgebra.const false : β)).length = w := List.length_replicate.trans hhead
      rw [hsame.2 _ hitem,
        length_weighed index hstart fun b hb => hsame.2 b (List.mem_of_mem_take hb)]
    · cases hp
  · cases hp

/-- Every node of an expression that has a value has one with the bits that it declares, and the
words that are taken side by side are of one length. -/
def KeepsWidths (c : Context β) (e : Expr) : Prop :=
  ∀ x ∈ e.preorder, (∀ v, x.evaluate c = .ok v → v.Declared x) ∧
    ∀ p ∈ x.paired c, p.1.length = p.2.length

theorem keepsWidths_of_sized {c : Context β} (hc : c.Sized) {e : Expr} (hw : e.WellFormed) :
    e.KeepsWidths c := by
  intro x hx
  have hwx := hw.of_mem hx
  refine ⟨fun v hv => ?_, fun p hp => length_paired hc hwx hp⟩
  rw [evaluate_eq_eval] at hv
  exact Value.declared_of_hasShape hwx.typed (eval_hasShape hc hwx hv)

/-- Evaluation keeps the declared widths, over truth values and over conditions on the bits of
holes, whatever the module names stand for. An interpretation therefore yields a number of the width
of the expression. -/
theorem evaluation_keepsWidths {e : Expr} (hw : e.WellFormed) (modules : ModuleTable) :
    (∀ env σ, e.KeepsWidths (.concrete env σ modules)) ∧
      (∀ env starts, e.KeepsWidths (Solve.symbolic env starts modules)) ∧
      ∀ env σ n, e.interpret env σ modules = .ok n → n < twoPow e.width := by
  refine ⟨fun env σ => keepsWidths_of_sized (sized_concrete env σ modules) hw,
    fun env starts => keepsWidths_of_sized (Solve.sized_symbolic env modules starts) hw,
    fun env σ n hn => ?_⟩
  obtain ⟨bits, -, hlen, rfl⟩ := exists_bits_of_interpret hw hn
  rw [← hlen]
  exact Word.toNat_lt bits

/-- A name of a lookup table that stands for a carry block, wired like a carry block. -/
theorem evaluation_keepsWidths_misnamed :
    let x := node 2 (.var "x" 2) (.word 2) []
    let block := node 3 (.primitive "LUT1" ["CI", "DI", "S"] [("O", 2)]) (.group [("O", 2)])
      [node 1 (.const 1 1) (.word 1) [], x, x]
    let e := node 4 (.output "O") (.word 2) [block]
    let modules : ModuleTable := fun _ => some .carryAdd
    e.WellFormed ∧ e.interpret [("x", 7)] ∅ modules = .ok 3 ∧
      e.KeepsWidths (Solve.symbolic [("x", 7)] ∅ modules) ∧ 3 < twoPow e.width := by
  intro x block e modules
  have hconst : (Op.const 1 1).Typed [] (.word 1) := .const (by decide) (by decide)
  have hvar : (Op.var "x" 2).Typed [] (.word 2) := .var (by decide)
  have hblock : (Op.primitive "LUT1" ["CI", "DI", "S"] [("O", 2)]).Typed
      ([1, 2, 2].map .word) (.group [("O", 2)]) := .primitive rfl (by decide)
  have houtput : (Op.output "O").Typed [.group [("O", 2)]] (.word 2) := .output rfl
  have hw : e.WellFormed := by
    simpa [e, block, x, hconst, hvar, houtput] using hblock
  have hn : e.interpret [("x", 7)] ∅ modules = .ok 3 := by
    rw [interpret, evaluate_eq_eval]
    rfl
  obtain ⟨-, hsymbolic, hlt⟩ := evaluation_keepsWidths hw modules
  exact ⟨hw, hn, hsymbolic _ _, hlt _ _ _ hn⟩

end Expr
end CircuitSketch
