import CircuitSketch.Proofs.Expr.Building
import CircuitSketch.Proofs.Expr.Construction
import CircuitSketch.Proofs.Expr.Grown

/-!
# Cutting and joining words

What the builders that take words apart and put them together make: which bits the new word has,
over every bit algebra, and that nothing but the given words is used. A cut of a whole word and a
join of a single one are that word itself.
-/
namespace CircuitSketch

namespace Expr

/-- `y` is grown from `xs` without any holes. -/
abbrev GrownFrom (xs : List Expr) (y : Expr) : Prop :=
  y.Grown (· ∈ xs) (fun _ => False) (fun _ => False)

/-- `y` is the bits `lo` to `hi` of `e`. -/
structure Cut (e : Expr) (lo hi : Nat) (y : Expr) : Prop where
  shape : y.shape = .word (hi + 1 - lo)
  grown : GrownFrom [e] y
  uses : e ∈ y.preorder
  eval : ∀ {β : Type} [BitAlgebra β] (c : Context β) (bits : List β),
    eval c e = .ok (.word bits) → bits.length = e.width →
      eval c y = .ok (.word ((bits.drop lo).take (hi + 1 - lo)))

theorem cut_extract (t : Nat) {e : Expr} {lo hi w : Nat} (hs : e.shape = .word w) (le : lo ≤ hi)
    (lt : hi < w) : Cut e lo hi (node t (.extract lo hi) (.word (hi + 1 - lo)) [e]) where
  shape := rfl
  grown := by
    refine .operation ?_ ?_ fun a ha => .operand ha
    · rw [List.map_singleton, hs]
      exact .extract le lt
    · rw [List.map_singleton, hs]
      exact Op.total_extract lo hi w
  uses := by simp [mem_preorder_self]
  eval c bits h _ := by
    rw [Expr.eval, evalAll_eq_ok.mpr (.cons h .nil)]
    rfl

theorem cut_self {e : Expr} {hi : Nat} (hs : e.shape = .word (hi + 1)) : Cut e 0 hi e where
  shape := hs
  grown := .operand (by simp)
  uses := e.mem_preorder_self
  eval c bits h hlen := by
    rw [width_of_shape hs] at hlen
    rw [h, List.drop_zero, Nat.sub_zero, List.take_of_length_le hlen.le]

/-- A cut of one bit has that bit. -/
theorem Cut.eval_bit {e y : Expr} {i : Nat} (h : Cut e i i y) {β : Type} [BitAlgebra β]
    {c : Context β} {bits : List β} (he : Expr.eval c e = .ok (.word bits))
    (hlen : bits.length = e.width) (hi : i < bits.length) :
    Expr.eval c y = .ok (.word [bits[i]]) := by
  have hone : i + 1 - i = 1 := by omega
  rw [h.eval c bits he hlen, hone, List.drop_eq_getElem_cons hi]
  rfl

theorem Cut.eval_getD {e y : Expr} {i : Nat} (h : Cut e i i y) {c : Context Bool}
    {bits : List Bool} (he : Expr.eval c e = .ok (.word bits)) (hlen : bits.length = e.width)
    (hi : i < bits.length) : Expr.eval c y = .ok (.word [bits.getD i false]) := by
  rw [h.eval_bit he hlen hi, List.getD_eq_getElem?_getD, List.getElem?_eq_getElem hi,
    Option.getD_some]

theorem Cut.shape_bit {e y : Expr} {i : Nat} (h : Cut e i i y) : y.shape = .word 1 := by
  rw [h.shape]
  congr
  omega

/-- Cuts of single bits have the bits at their positions. -/
theorem eval_cuts {e : Expr} {ys : List Expr} {positions : List Nat}
    (h : List.Forall₂ (fun i y => Cut e i i y) positions ys) {c : Context Bool} {bits : List Bool}
    (he : Expr.eval c e = .ok (.word bits)) (hlen : bits.length = e.width)
    (hi : ∀ i ∈ positions, i < bits.length) :
    List.Forall₂ (fun y b => Expr.eval c y = .ok (.word [b])) ys
      (positions.map (bits.getD · false)) := by
  induction h with
  | nil => exact .nil
  | cons hcut _ ih =>
    exact .cons (hcut.eval_getD he hlen (hi _ (by simp))) (ih fun i hmem => hi i (by simp [hmem]))

theorem map_getD_range' (bits : List Bool) (i n : Nat) (h : i + n ≤ bits.length) :
    (List.range' i n).map (bits.getD · false) = (bits.drop i).take n := by
  refine List.ext_getElem (by simp; omega) fun k h1 h2 => ?_
  have hk : i + k < bits.length := by simp at h1; omega
  simp [List.getD_eq_getElem?_getD, hk]

/-- Cuts of consecutive bits have the bits there. -/
theorem eval_cuts_range' {e : Expr} {ys : List Expr} {i n : Nat}
    (h : List.Forall₂ (fun i y => Cut e i i y) (List.range' i n) ys) {c : Context Bool}
    {bits : List Bool} (he : Expr.eval c e = .ok (.word bits)) (hlen : bits.length = e.width)
    (hn : i + n ≤ bits.length) :
    List.Forall₂ (fun y b => Expr.eval c y = .ok (.word [b])) ys ((bits.drop i).take n) := by
  rw [← map_getD_range' bits i n hn]
  exact eval_cuts h he hlen fun k hk => by rw [List.mem_range'_1] at hk; omega

/-- Cuts of all bits have the bits of the word. -/
theorem eval_all_cuts {e : Expr} {ys : List Expr} {w : Nat}
    (h : List.Forall₂ (fun i y => Cut e i i y) (List.range w) ys) {c : Context Bool}
    {bits : List Bool} (he : Expr.eval c e = .ok (.word bits)) (hs : e.shape = .word w)
    (hlen : bits.length = w) :
    List.Forall₂ (fun y b => Expr.eval c y = .ok (.word [b])) ys bits := by
  rw [List.range_eq_range'] at h
  have hvalues := eval_cuts_range' h he (hlen.trans (width_of_shape hs).symm) (by omega)
  rwa [List.drop_zero, List.take_of_length_le hlen.le] at hvalues

/-- `y` is the words `xs` joined, the last one on top. -/
structure Join (xs : List Expr) (y : Expr) : Prop where
  shape : y.shape = .word (xs.map width).sum
  grown : GrownFrom xs y
  uses : ∀ x ∈ xs, x ∈ y.preorder
  eval : ∀ {β : Type} [BitAlgebra β] (c : Context β) (words : List (List β)),
    List.Forall₂ (fun x b => eval c x = .ok (.word b)) xs words →
      eval c y = .ok (.word words.flatten)

theorem join_self {e : Expr} (hs : e.isWord) : Join [e] e where
  shape := by simpa using isWord_iff.mp hs
  grown := .operand (by simp)
  uses := by simp [mem_preorder_self]
  eval c words h := by
    obtain ⟨b, rest, hb, hrest, rfl⟩ := List.forall₂_cons_left_iff.mp h
    rw [List.forall₂_nil_left_iff] at hrest
    rw [hb, hrest, List.flatten_cons, List.flatten_nil, List.append_nil]

/-- Joined bits are a word with as many. -/
theorem Join.shape_of_bits {xs : List Expr} {y : Expr} (h : Join xs y)
    (bits : ∀ x ∈ xs, x.shape = .word 1) : y.shape = .word xs.length := by
  have hwidths : xs.map width = List.replicate xs.length 1 :=
    List.eq_replicate_iff.mpr ⟨List.length_map .., List.forall_mem_map.mpr fun x hx =>
      width_of_shape (bits x hx)⟩
  rw [h.shape, hwidths, List.sum_replicate_nat, Nat.mul_one]

theorem Join.eval_bits {β : Type} [BitAlgebra β] {xs : List Expr} {y : Expr} (h : Join xs y)
    {c : Context β} {row : List β}
    (hrow : List.Forall₂ (fun x b => Expr.eval c x = .ok (.word [b])) xs row) :
    Expr.eval c y = .ok (.word row) := by
  have hvalue := h.eval c (row.map ([·])) (List.forall₂_map_right_iff.mpr hrow)
  rwa [← List.flatMap_def, List.flatMap_singleton'] at hvalue

theorem map_shape_of_isWord {xs : List Expr} (h : ∀ x ∈ xs, x.isWord) :
    xs.map shape = (xs.map width).map .word := by
  rw [List.map_map]
  exact List.map_congr_left fun x hx => isWord_iff.mp (h x hx)

theorem join_concat (t : Nat) {xs : List Expr} (hs : ∀ x ∈ xs, x.isWord) (ne : xs ≠ []) :
    Join xs (node t .concat (.word (xs.map width).sum) xs.reverse) where
  shape := rfl
  grown := by
    have hshape : xs.reverse.map Expr.shape = (xs.reverse.map width).map .word :=
      map_shape_of_isWord fun x hx => hs x (List.mem_reverse.mp hx)
    refine .operation ?_ ?_ fun a ha => .operand (List.mem_reverse.mp ha)
    · rw [hshape, ← List.sum_reverse, ← List.map_reverse]
      exact .concat (by simp [ne])
    · rw [hshape]
      exact Op.total_concat _
  uses x hx := mem_preorder_node.mpr (.inr ⟨x, List.mem_reverse.mpr hx, x.mem_preorder_self⟩)
  eval c words h := by
    have hvalues : evalAll c xs.reverse = .ok (words.reverse.map .word) := by
      rw [evalAll_eq_ok, List.forall₂_map_right_iff]
      exact List.rel_reverse h
    rw [Expr.eval, hvalues]
    simp only [Op.eval, Value.words_map_word, bind, Except.bind, List.reverse_reverse]

end Expr

namespace Build

open CircuitSketch.Expr

variable {ε : Type} {next last : Nat}

theorem of_slice {e y : Expr} {lo hi w : Nat} (hs : e.shape = .word w) (le : lo ≤ hi)
    (lt : hi < w) (h : (slice e lo hi : Build ε Expr) next = .ok (y, last)) :
    next ≤ last ∧ Cut e lo hi y := by
  unfold slice at h
  split at h
  · next hwhole =>
    cases h
    rw [width_of_shape hs] at hwhole
    obtain ⟨rfl, rfl⟩ := hwhole
    exact ⟨le_rfl, cut_self hs⟩
  · cases h
    exact ⟨by omega, cut_extract _ hs le lt⟩

theorem succeeds_slice (e : Expr) (lo hi : Nat) : Succeeds (slice e lo hi : Build ε Expr) := by
  unfold slice
  split
  · exact succeeds_pure e
  · exact succeeds_node _ _ _

theorem bit_eq_slice (e : Expr) (i : Nat) : (bit e i : Build ε Expr) = slice e i i := by
  unfold bit slice
  by_cases h : e.width = 1 ∧ i = 0
  · rw [if_pos h, if_pos (by omega)]
  · rw [if_neg h, if_neg (by omega)]

theorem of_bit {e y : Expr} {i w : Nat} (hs : e.shape = .word w) (lt : i < w)
    (h : (bit e i : Build ε Expr) next = .ok (y, last)) : next ≤ last ∧ Cut e i i y := by
  rw [bit_eq_slice] at h
  exact of_slice hs le_rfl lt h

theorem succeeds_bit (e : Expr) (i : Nat) : Succeeds (bit e i : Build ε Expr) := by
  rw [bit_eq_slice]
  exact succeeds_slice e i i

/-- Single bits of one word at given positions. -/
theorem of_mapM_bit {e : Expr} {ys : List Expr} {positions : List Nat} {w : Nat}
    (hs : e.shape = .word w) (lt : ∀ i ∈ positions, i < w)
    (h : positions.mapM (bit e : Nat → Build ε Expr) next = .ok (ys, last)) :
    next ≤ last ∧ List.Forall₂ (fun i y => Cut e i i y) positions ys := by
  obtain ⟨hle, hall⟩ := of_mapM h fun i hi a y b hy => (of_bit hs (lt i hi) hy).1
  exact ⟨hle, forall₂_of_mem hall fun i hi y ⟨a, b, _, _, hy⟩ => (of_bit hs (lt i hi) hy).2⟩

theorem of_bits {e : Expr} {ys : List Expr} {w : Nat} (hs : e.shape = .word w)
    (h : (bits e : Build ε (List Expr)) next = .ok (ys, last)) :
    next ≤ last ∧ List.Forall₂ (fun i y => Cut e i i y) (List.range w) ys := by
  rw [bits, width_of_shape hs] at h
  exact of_mapM_bit hs (fun i hi => List.mem_range.mp hi) h

theorem succeeds_bits (e : Expr) : Succeeds (bits e : Build ε (List Expr)) :=
  succeeds_mapM fun i _ => succeeds_bit e i

theorem of_concatBits {xs : List Expr} {y : Expr} (hs : ∀ x ∈ xs, x.isWord) (ne : xs ≠ [])
    (h : (concatBits xs : Build ε Expr) next = .ok (y, last)) : next ≤ last ∧ Join xs y := by
  unfold concatBits at h
  split at h
  · next e =>
    cases h
    exact ⟨le_rfl, join_self (hs _ (by simp))⟩
  · cases h
    have hwidth : totalWidth xs.reverse = (xs.map width).sum := by
      rw [Checked.totalWidth_eq_sum, List.map_reverse, List.sum_reverse]
    rw [hwidth]
    exact ⟨by omega, join_concat _ hs ne⟩

theorem succeeds_concatBits (xs : List Expr) : Succeeds (concatBits xs : Build ε Expr) := by
  unfold concatBits
  split
  · exact succeeds_pure _
  · exact succeeds_node _ _ _

/-- A bit that is zero. -/
def zeroBit (t : Nat) : Expr := .node t (.const 1 0) (.word 1) []

theorem const_zero : (const 1 0 : Build ε Expr) next = .ok (zeroBit next, next + 1) := rfl

theorem grown_zeroBit (t : Nat) : GrownFrom [] (zeroBit t) :=
  .operation (.const Nat.one_pos Nat.zero_lt_two) (Op.total_const 1 0) fun a ha => by cases ha

theorem eval_zeroBit {β : Type} [BitAlgebra β] (c : Context β) (t : Nat) :
    eval c (zeroBit t) = .ok (.word [BitAlgebra.const false]) := rfl

end Build
end CircuitSketch
