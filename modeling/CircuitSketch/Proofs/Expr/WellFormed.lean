import CircuitSketch.Expr.Checked
import CircuitSketch.Proofs.Expr.Occurrence
import CircuitSketch.Proofs.Lookup
import Mathlib.Data.List.Forall2

/-!
# Well-formed expressions

The rule on shapes for every operation, as a relation between the shapes of its operands and of its
result. An expression is well-formed when every node that occurs in it keeps the rule. All widths of
a well-formed expression are positive.
-/
namespace CircuitSketch

/-- The rule on shapes: operands of the listed shapes fit the operation, which then stands for
something of the last shape. -/
inductive Op.Typed : Op → List Shape → Shape → Prop
  | const {w v : Nat} (pos : 0 < w) (fits : v < twoPow w) : Typed (.const w v) [] (.word w)
  | var {name : String} {w : Nat} (pos : 0 < w) : Typed (.var name w) [] (.word w)
  | extract {lo hi n : Nat} (le : lo ≤ hi) (lt : hi < n) :
      Typed (.extract lo hi) [.word n] (.word (hi + 1 - lo))
  | concat {ws : List Nat} (ne : ws ≠ []) : Typed .concat (ws.map .word) (.word ws.sum)
  | zeroExtend {n w : Nat} (le : n ≤ w) : Typed (.zeroExtend w) [.word n] (.word w)
  | dupExtend {n w : Nat} (le : n ≤ w) : Typed (.dupExtend w) [.word n] (.word w)
  | list {w n : Nat} (pos : 0 < n) : Typed .list (List.replicate n (.word w)) (.list w n)
  | item {p : Position} {w n : Nat} (lt : p.toNat < n) :
      Typed (.item p) [.list w n] (.word w)
  | lookup {w n i : Nat} : Typed .lookup [.list w n, .word i] (.word w)
  | record {keys : List String} {ws : List Nat} (nodup : keys.Nodup)
      (length : keys.length = ws.length) :
      Typed (.record keys) (ws.map .word) (.group (keys.zip ws))
  | primitive {module : String} {ports : List String} {outputs : List (String × Nat)}
      {ws : List Nat} (length : ports.length = ws.length) (pos : ∀ o ∈ outputs, 0 < o.2) :
      Typed (.primitive module ports outputs) (ws.map .word) (.group outputs)
  | output {key : String} {fields : List (String × Nat)} {w : Nat}
      (known : Checked.fieldWidth? fields key = some w) :
      Typed (.output key) [.group fields] (.word w)
  | binary {op : BinaryOp} {n : Nat} :
      Typed (.binary op) [.word n, .word n] (.word (if op.isComparison then 1 else n))
  | unary {op : UnaryOp} {n : Nat} : Typed (.unary op) [.word n] (.word n)

namespace Shape

/-- All widths are positive, and a list has an item. -/
def Positive : Shape → Prop
  | word w => 0 < w
  | list w n => 0 < w ∧ 0 < n
  | group fields => ∀ f ∈ fields, 0 < f.2

end Shape

theorem Checked.mem_of_fieldWidth? {fields : List (String × Nat)} {key : String} {w : Nat}
    (h : fieldWidth? fields key = some w) : (key, w) ∈ fields :=
  List.mem_reverse.mp (mem_of_lookup_eq_some h)

theorem Op.Typed.positive {op : Op} {shapes : List Shape} {s : Shape} (h : op.Typed shapes s)
    (hpos : ∀ x ∈ shapes, x.Positive) : s.Positive := by
  cases h with
  | const pos fits => exact pos
  | var pos => exact pos
  | extract le lt =>
    simp only [Shape.Positive]
    omega
  | @concat ws ne =>
    obtain ⟨w, rest, rfl⟩ := List.exists_cons_of_ne_nil ne
    have hw : 0 < w := hpos (.word w) (by simp)
    simp only [Shape.Positive, List.sum_cons]
    omega
  | @zeroExtend n w le =>
    have hn : 0 < n := hpos (.word n) (by simp)
    exact hn.trans_le le
  | @dupExtend n w le =>
    have hn : 0 < n := hpos (.word n) (by simp)
    exact hn.trans_le le
  | @list w n pos =>
    have hw : 0 < w := hpos (.word w) (by simp [pos.ne'])
    exact ⟨hw, pos⟩
  | @item p w n lt =>
    have hl : (Shape.list w n).Positive := hpos _ (by simp)
    exact hl.1
  | @lookup w n i =>
    have hl : (Shape.list w n).Positive := hpos _ (by simp)
    exact hl.1
  | record nodup length =>
    intro f hf
    have hw : f.2 ∈ _ := (List.of_mem_zip hf).2
    exact hpos (.word f.2) (List.mem_map_of_mem hw)
  | primitive length pos => exact pos
  | @output key fields w known =>
    have hf : (Shape.group fields).Positive := hpos _ (by simp)
    exact hf (key, w) (Checked.mem_of_fieldWidth? known)
  | @binary op n =>
    have hn : 0 < n := hpos (.word n) (by simp)
    simp only [Shape.Positive]
    split <;> omega
  | @unary op n => exact hpos (.word n) (by simp)

namespace Expr

/-- A node keeps the rule on shapes. -/
def Typed : Expr → Prop
  | hole h => 0 < h.width
  | node _ op s args => op.Typed (args.map shape) s
  | choose _ w a b s => a.shape = .word w ∧ b.shape = .word w ∧ s.width = 1

/-- Every node that occurs in the expression keeps the rule on shapes. -/
def WellFormed (e : Expr) : Prop := ∀ x ∈ e.preorder, x.Typed

theorem WellFormed.typed {e : Expr} (h : e.WellFormed) : e.Typed := h e e.mem_preorder_self

theorem WellFormed.of_mem {x e : Expr} (h : e.WellFormed) (hx : x ∈ e.preorder) : x.WellFormed :=
  fun _ hy => h _ (mem_preorder_trans hy hx)

@[simp] theorem wellFormed_hole {h : Hole} : (hole h).WellFormed ↔ 0 < h.width := by
  simp [WellFormed, Typed]

@[simp] theorem wellFormed_node {t : Nat} {op : Op} {s : Shape} {args : List Expr} :
    (node t op s args).WellFormed ↔
      op.Typed (args.map shape) s ∧ ∀ a ∈ args, a.WellFormed := by
  constructor
  · intro h
    exact ⟨h.typed, fun a ha x hx => h x (mem_preorder_node.mpr (.inr ⟨a, ha, hx⟩))⟩
  · rintro ⟨ht, hargs⟩ x hx
    rcases mem_preorder_node.mp hx with rfl | ⟨a, ha, hxa⟩
    · exact ht
    · exact hargs a ha x hxa

@[simp] theorem wellFormed_choose {t w : Nat} {a b : Expr} {s : Hole} :
    (choose t w a b s).WellFormed ↔
      (a.shape = .word w ∧ b.shape = .word w ∧ s.width = 1) ∧ a.WellFormed ∧ b.WellFormed := by
  constructor
  · intro h
    exact ⟨h.typed, fun x hx => h x (mem_preorder_choose.mpr (.inr (.inl hx))),
      fun x hx => h x (mem_preorder_choose.mpr (.inr (.inr (.inl hx))))⟩
  · rintro ⟨ht, ha, hb⟩ x hx
    rcases mem_preorder_choose.mp hx with rfl | hxa | hxb | rfl
    · exact ht
    · exact ha x hxa
    · exact hb x hxb
    · simp [Typed, ht.2.2]

theorem WellFormed.positive {e : Expr} (h : e.WellFormed) : e.shape.Positive := by
  induction e using Expr.induction with
  | hole k => exact wellFormed_hole.mp h
  | node t op s args ih =>
    obtain ⟨ht, hargs⟩ := wellFormed_node.mp h
    refine ht.positive fun x hx => ?_
    obtain ⟨a, ha, rfl⟩ := List.mem_map.mp hx
    exact ih a ha (hargs a ha)
  | choose t w a b s iha ihb =>
    obtain ⟨⟨hshape, -, -⟩, ha, -⟩ := wellFormed_choose.mp h
    have hpos := iha ha
    rwa [hshape] at hpos

theorem isWord_iff {e : Expr} : e.isWord ↔ e.shape = .word e.width := by
  unfold isWord width
  cases e.shape <;> simp [Shape.isWord, Shape.width?]

theorem width_of_shape {e : Expr} {w : Nat} (h : e.shape = .word w) : e.width = w := by
  rw [width, h]
  rfl

theorem isWord_of_shape {e : Expr} {w : Nat} (h : e.shape = .word w) : e.isWord :=
  isWord_iff.mpr (by rw [h, width_of_shape h])

/-- Operands whose shapes are words of listed widths. -/
theorem words_of_map_shape {args : List Expr} {ws : List Nat} (h : args.map shape = ws.map .word) :
    (∀ a ∈ args, a.isWord) ∧ args.map width = ws := by
  induction args generalizing ws with
  | nil =>
    obtain rfl : ws = [] := List.map_eq_nil_iff.mp h.symm
    simp
  | cons a args ih =>
    obtain ⟨w, ws, rfl⟩ : ∃ v vs, ws = v :: vs := by
      cases ws with
      | nil => cases h
      | cons v vs => exact ⟨v, vs, rfl⟩
    rw [List.map_cons, List.map_cons, List.cons.injEq] at h
    obtain ⟨hwords, hwidths⟩ := ih h.2
    refine ⟨List.forall_mem_cons.mpr ⟨isWord_of_shape h.1, hwords⟩, ?_⟩
    rw [List.map_cons, width_of_shape h.1, hwidths]

theorem map_shape_eq_pair {args : List Expr} {s s' : Shape} (h : args.map shape = [s, s']) :
    ∃ a b, args = [a, b] ∧ a.shape = s ∧ b.shape = s' := by
  obtain ⟨a, rest, rfl, ha, hrest⟩ := List.map_eq_cons_iff.mp h
  obtain ⟨b, rfl, hb⟩ := List.map_eq_singleton_iff.mp hrest
  exact ⟨a, b, rfl, ha, hb⟩

end Expr
end CircuitSketch
