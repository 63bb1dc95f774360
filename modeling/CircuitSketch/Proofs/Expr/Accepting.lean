import CircuitSketch.Proofs.Expr.Building
import CircuitSketch.Proofs.Expr.Construction

/-!
# Checked construction makes all well-formed nodes

Operands that keep the rule on shapes pass every check of the operation, and the node that is made
has the shape that the rule gives it. So a well-formed node is what its constructor makes of its own
operands: none of the checks turns it down.
-/
namespace CircuitSketch

open Build

namespace Operand

theorem word_expr {place : Place} {e : Expr} {w : Nat} (h : e.shape = .word w) :
    (expr e).word place = .ok e := by
  rw [word, if_pos (Expr.isWord_of_shape h)]

theorem words_map_expr {place : Place} {es : List Expr} (h : ∀ e ∈ es, e.isWord) :
    words place (es.map expr) = .ok es := by
  induction es with
  | nil => rfl
  | cons e es ih =>
    have he := Expr.isWord_iff.mp (h e (by simp))
    rw [List.map_cons, words, word_expr he, ih fun x hx => h x (by simp [hx])]
    rfl

end Operand

theorem widthOf_int {w : Nat} (pos : 0 < w) (place : Place) : widthOf place (.int w) = .ok w := by
  rw [widthOf, Datum.positive?_int w pos]

theorem BinaryOp.ofName?_name (op : BinaryOp) : ofName? op.name = some op := by
  cases op <;> decide

theorem UnaryOp.ofName?_name (op : UnaryOp) : ofName? op.name = some op := by
  cases op <;> decide

/-- A position as it is given to the constructor. -/
def Position.datum : Position → Datum
  | number n => .int n
  | truth b => .bool b

theorem Position.number?_datum (p : Position) : p.datum.number? = some (p.toNat : Int) := by
  cases p with
  | number n => rfl
  | truth b => cases b <;> rfl

theorem Position.positionOf_datum (p : Position) : Checked.positionOf p.datum p.toNat = p := by
  cases p <;> rfl

namespace Checked

/-- Distinct names are not fewer when repetitions are dropped. -/
theorem eraseDups_of_nodup {α : Type} [BEq α] [LawfulBEq α] {xs : List α} (h : xs.Nodup) :
    xs.eraseDups = xs := by
  induction xs with
  | nil => exact List.eraseDups_nil
  | cons x xs ih =>
    obtain ⟨hx, hxs⟩ := List.nodup_cons.mp h
    have hfilter : (xs.filter fun y => !y == x) = xs := by
      rw [List.filter_eq_self]
      intro y hy
      have hne : y ≠ x := fun heq => hx (heq ▸ hy)
      simp [hne]
    rw [List.eraseDups_cons, hfilter, ih hxs]

/-- Items of one width have one distinct width. -/
theorem distinct_replicate {n : Nat} (pos : 0 < n) (w : Nat) :
    distinct (List.replicate n w) = [w] := by
  obtain ⟨m, rfl⟩ : ∃ m, n = m + 1 := ⟨n - 1, by omega⟩
  have hfilter : ((List.replicate m w).filter fun v => !v == w) = [] := by
    rw [List.filter_eq_nil_iff]
    intro v hv
    simp [List.eq_of_mem_replicate hv]
  rw [distinct, List.replicate_succ, List.eraseDups_cons, hfilter, List.eraseDups_nil,
    List.mergeSort_singleton]

theorem namedWords_zip {place : String → Place} {names : List String} {es : List Expr}
    (length : names.length = es.length) (h : ∀ e ∈ es, e.isWord) :
    namedWords place (names.zip (es.map .expr)) = .ok (names.zip es) := by
  induction names generalizing es with
  | nil => rfl
  | cons name names ih =>
    obtain ⟨e, es, rfl⟩ : ∃ x xs, es = x :: xs := by
      cases es with
      | nil => cases length
      | cons x xs => exact ⟨x, xs, rfl⟩
    have he := Expr.isWord_iff.mp (h e (by simp))
    have hrest := ih (Nat.succ.inj length) fun x hx => h x (by simp [hx])
    rw [List.map_cons, List.zip_cons_cons, namedWords, Operand.word_expr he, hrest]
    rfl

theorem outputWidths_map_int {module : String} {outputs : List (String × Nat)}
    (pos : ∀ o ∈ outputs, 0 < o.2) :
    outputWidths module (outputs.map fun o => (o.1, .int o.2)) = .ok outputs := by
  induction outputs with
  | nil => rfl
  | cons o outputs ih =>
    rw [List.map_cons, outputWidths, widthOf_int (pos o (by simp)),
      ih fun d hd => pos d (by simp [hd])]
    rfl

variable {e : Expr} {args : List Expr} {w n : Nat}

theorem const_eq_ok {v : Nat} (pos : 0 < w) (fits : v < twoPow w) (next : Nat) :
    const (.int w) v next = .ok (.node next (.const w v) (.word w) [], next + 1) := by
  have hrange : -(twoPow w : Int) ≤ v ∧ (v : Int) < twoPow w := by omega
  have hvalue : ((v : Int) % twoPow w).toNat = v := by
    rw [Int.emod_eq_of_lt (by omega) hrange.2, Int.toNat_natCast]
  rw [const, bind_of_ok (lift_of_ok (widthOf_int pos _)), if_pos hrange, Build.const, hvalue]
  rfl

theorem var_eq_ok (pos : 0 < w) (name : String) (next : Nat) :
    var name (.int w) next = .ok (.node next (.var name w) (.word w) [], next + 1) := by
  rw [var, bind_of_ok (lift_of_ok (widthOf_int pos _))]
  rfl

theorem hole_eq_ok (pos : 0 < w) (name : Option String) (next : Nat) :
    hole (.int w) name next = .ok (.hole ⟨next, w, name⟩, next + 1) := by
  rw [hole, bind_of_ok (lift_of_ok (widthOf_int pos _))]
  rfl

theorem extract_eq_ok (he : e.shape = .word n) {lo hi : Nat} (le : lo ≤ hi) (lt : hi < n)
    (next : Nat) : extract lo hi (.expr e) next =
      .ok (.node next (.extract lo hi) (.word (hi + 1 - lo)) [e], next + 1) := by
  have hrange : (0 : Int) ≤ lo ∧ (lo : Int) ≤ hi ∧ (hi : Int) < e.width := by
    rw [Expr.width_of_shape he]
    omega
  rw [extract, bind_of_ok (lift_of_ok (Operand.word_expr he)), if_pos hrange]
  rfl

theorem concat_eq_ok (ne : args ≠ []) (words : ∀ a ∈ args, a.isWord) (next : Nat) :
    concat (args.map .expr) next =
      .ok (.node next .concat (.word (args.map Expr.width).sum) args, next + 1) := by
  rw [concat, if_neg (by simpa using ne), bind_of_ok (lift_of_ok (Operand.words_map_expr words)),
    Build.concat, totalWidth_eq_sum]
  rfl

theorem zeroExtend_eq_ok (he : e.shape = .word n) (pos : 0 < n) (le : n ≤ w) (next : Nat) :
    zeroExtend (.expr e) (.int w) next =
      .ok (.node next (.zeroExtend w) (.word w) [e], next + 1) := by
  rw [zeroExtend, bind_of_ok (lift_of_ok (Operand.word_expr he)),
    bind_of_ok (lift_of_ok (widthOf_int (pos.trans_le le) _)), Expr.width_of_shape he,
    if_neg (by omega)]
  rfl

theorem dupExtend_eq_ok (he : e.shape = .word n) (pos : 0 < n) (le : n ≤ w) (next : Nat) :
    dupExtend (.expr e) (.int w) next =
      .ok (.node next (.dupExtend w) (.word w) [e], next + 1) := by
  rw [dupExtend, bind_of_ok (lift_of_ok (Operand.word_expr he)),
    bind_of_ok (lift_of_ok (widthOf_int (pos.trans_le le) _)), Expr.width_of_shape he,
    if_neg (by omega)]
  rfl

theorem list_eq_ok (pos : 0 < n) (words : ∀ a ∈ args, a.isWord)
    (widths : args.map Expr.width = List.replicate n w) (next : Nat) :
    list (args.map .expr) next = .ok (.node next .list (.list w n) args, next + 1) := by
  have hlength : args.length = n := by simpa using congrArg List.length widths
  have hne : args ≠ [] := List.length_pos_iff.mp (hlength ▸ pos)
  have hone : (distinct (args.map Expr.width)).length = 1 := by
    rw [widths, distinct_replicate pos]
    rfl
  have hhead : (List.replicate n w).headD 0 = w := by
    obtain ⟨m, rfl⟩ : ∃ m, n = m + 1 := ⟨n - 1, by omega⟩
    rfl
  rw [list, if_neg (by simpa using hne), bind_of_ok (lift_of_ok (Operand.words_map_expr words)),
    if_pos hone, Build.list, widths, hlength, hhead]
  rfl

theorem item_eq_ok (he : e.shape = .list w n) {p : Position} (lt : p.toNat < n) (next : Nat) :
    item (.expr e) (.datum p.datum) next =
      .ok (.node next (.item p) (.word w) [e], next + 1) := by
  have hrange : (0 : Int) ≤ p.toNat ∧ (p.toNat : Int) < n := by omega
  simp only [item, he, p.number?_datum, if_pos hrange, Int.toNat_natCast, p.positionOf_datum]
  rfl

theorem lookup_eq_ok {index : Expr} {i : Nat} (he : e.shape = .list w n)
    (hindex : index.shape = .word i) (next : Nat) : item (.expr e) (.expr index) next =
      .ok (.node next .lookup (.word w) [e, index], next + 1) := by
  have hwidth : e.width = w := by
    rw [Expr.width, he]
    rfl
  simp only [item, he]
  rw [bind_of_ok (lift_of_ok (Operand.word_expr hindex)), Build.lookup, hwidth]
  rfl

theorem record_eq_ok {keys : List String} (nodup : keys.Nodup) (length : keys.length = args.length)
    (words : ∀ a ∈ args, a.isWord) (next : Nat) : record (keys.zip (args.map .expr)) next =
      .ok (.node next (.record keys) (.group (keys.zip (args.map Expr.width))) args, next + 1) := by
  have hkeys : (keys.zip (args.map Operand.expr)).map (·.1) = keys :=
    List.map_fst_zip (by simp [length])
  have hfields : (keys.zip args).map (fun f => (f.1, f.2.width)) =
      keys.zip (args.map Expr.width) := by
    rw [List.zip_map_right]
    rfl
  rw [record, hkeys]
  rw [if_pos (congrArg List.length (eraseDups_of_nodup nodup)),
    bind_of_ok (lift_of_ok (namedWords_zip length words)), hfields,
    List.map_snd_zip length.ge]
  rfl

theorem primitive_eq_ok {module : String} {ports : List String} {outputs : List (String × Nat)}
    (length : ports.length = args.length) (words : ∀ a ∈ args, a.isWord)
    (pos : ∀ o ∈ outputs, 0 < o.2) (next : Nat) :
    primitive module (ports.zip (args.map .expr)) (outputs.map fun o => (o.1, .int o.2)) next =
      .ok (.node next (.primitive module ports outputs) (.group outputs) args, next + 1) := by
  rw [primitive, bind_of_ok (lift_of_ok (namedWords_zip length words)),
    bind_of_ok (lift_of_ok (outputWidths_map_int pos)), Build.primitive,
    List.map_fst_zip length.le, List.map_snd_zip length.ge]
  rfl

theorem output_eq_ok {fields : List (String × Nat)} {key : String} (he : e.shape = .group fields)
    (known : fieldWidth? fields key = some w) (next : Nat) : output (.expr e) key next =
      .ok (.node next (.output key) (.word w) [e], next + 1) := by
  simp only [output, he, known]
  rfl

theorem binary_eq_ok (op : BinaryOp) {a b : Expr} (ha : a.shape = .word n) (hb : b.shape = .word n)
    (next : Nat) : binary op.name (.expr a) (.expr b) next = .ok (.node next (.binary op)
      (.word (if op.isComparison then 1 else n)) [a, b], next + 1) := by
  simp only [binary, op.ofName?_name]
  rw [bind_of_ok (lift_of_ok (Operand.word_expr ha)), bind_of_ok (lift_of_ok (Operand.word_expr hb)),
    Expr.width_of_shape ha, Expr.width_of_shape hb, if_pos rfl]
  rfl

theorem unary_eq_ok (op : UnaryOp) (he : e.shape = .word n) (next : Nat) :
    unary op.name (.expr e) next = .ok (.node next (.unary op) (.word n) [e], next + 1) := by
  simp only [unary, op.ofName?_name]
  rw [bind_of_ok (lift_of_ok (Operand.word_expr he)), Expr.width_of_shape he]
  rfl

theorem choose_eq_ok {a b : Expr} {s : Hole} (ha : a.shape = .word w) (hb : b.shape = .word w)
    (one : s.width = 1) (next : Nat) : choose (.expr a) (.expr b) (.expr (.hole s)) next =
      .ok (.choose next w a b s, next + 1) := by
  rw [choose, bind_of_ok (lift_of_ok (Operand.word_expr ha)),
    bind_of_ok (lift_of_ok (Operand.word_expr hb)), Expr.width_of_shape ha,
    Expr.width_of_shape hb, if_pos rfl]
  simp only [if_pos one]
  rw [Build.chooseBy, Expr.width_of_shape ha]

end Checked

/-- Makes an operation of operands, with every check. An operand that is missing is no expression.
-/
def Op.checked (op : Op) (xs : List Operand) : Build ShapeError Expr :=
  let x := xs.getD 0 (.datum .null)
  let y := xs.getD 1 (.datum .null)
  match op with
  | .const w v => Checked.const (.int w) v
  | .var name w => Checked.var name (.int w)
  | .extract lo hi => Checked.extract lo hi x
  | .concat => Checked.concat xs
  | .zeroExtend w => Checked.zeroExtend x (.int w)
  | .dupExtend w => Checked.dupExtend x (.int w)
  | .list => Checked.list xs
  | .item p => Checked.item x (.datum p.datum)
  | .lookup => Checked.item x y
  | .record keys => Checked.record (keys.zip xs)
  | .primitive module ports outputs =>
    Checked.primitive module (ports.zip xs) (outputs.map fun o => (o.1, .int o.2))
  | .output key => Checked.output x key
  | .binary op => Checked.binary op.name x y
  | .unary op => Checked.unary op.name x

/-- Operands that keep the rule on shapes pass the checks, and their node has the shape of the
rule. -/
theorem Op.Typed.checked_eq_ok {op : Op} {args : List Expr} {s : Shape}
    (h : op.Typed (args.map Expr.shape) s) (pos : ∀ a ∈ args, a.shape.Positive) (next : Nat) :
    op.checked (args.map .expr) next = .ok (.node next op s args, next + 1) := by
  generalize hshapes : args.map Expr.shape = shapes at h
  cases h with
  | const hw fits =>
    obtain rfl := List.map_eq_nil_iff.mp hshapes
    exact Checked.const_eq_ok hw fits next
  | var hw =>
    obtain rfl := List.map_eq_nil_iff.mp hshapes
    exact Checked.var_eq_ok hw _ next
  | extract le lt =>
    obtain ⟨e, rfl, he⟩ := List.map_eq_singleton_iff.mp hshapes
    exact Checked.extract_eq_ok he le lt next
  | concat ne =>
    obtain ⟨hwords, rfl⟩ := Expr.words_of_map_shape hshapes
    exact Checked.concat_eq_ok (fun hnil => ne (by rw [hnil]; rfl)) hwords next
  | zeroExtend le =>
    obtain ⟨e, rfl, he⟩ := List.map_eq_singleton_iff.mp hshapes
    have hn : e.shape.Positive := pos e (by simp)
    rw [he] at hn
    exact Checked.zeroExtend_eq_ok he hn le next
  | dupExtend le =>
    obtain ⟨e, rfl, he⟩ := List.map_eq_singleton_iff.mp hshapes
    have hn : e.shape.Positive := pos e (by simp)
    rw [he] at hn
    exact Checked.dupExtend_eq_ok he hn le next
  | list hn =>
    rw [← List.map_replicate] at hshapes
    obtain ⟨hwords, hwidths⟩ := Expr.words_of_map_shape hshapes
    exact Checked.list_eq_ok hn hwords hwidths next
  | item lt =>
    obtain ⟨e, rfl, he⟩ := List.map_eq_singleton_iff.mp hshapes
    exact Checked.item_eq_ok he lt next
  | lookup =>
    obtain ⟨e, index, rfl, he, hindex⟩ := Expr.map_shape_eq_pair hshapes
    exact Checked.lookup_eq_ok he hindex next
  | record nodup length =>
    obtain ⟨hwords, rfl⟩ := Expr.words_of_map_shape hshapes
    exact Checked.record_eq_ok nodup (by simpa using length) hwords next
  | primitive length hpos =>
    obtain ⟨hwords, rfl⟩ := Expr.words_of_map_shape hshapes
    exact Checked.primitive_eq_ok (by simpa using length) hwords hpos next
  | output known =>
    obtain ⟨e, rfl, he⟩ := List.map_eq_singleton_iff.mp hshapes
    exact Checked.output_eq_ok he known next
  | binary =>
    obtain ⟨a, b, rfl, ha, hb⟩ := Expr.map_shape_eq_pair hshapes
    exact Checked.binary_eq_ok _ ha hb next
  | unary =>
    obtain ⟨e, rfl, he⟩ := List.map_eq_singleton_iff.mp hshapes
    exact Checked.unary_eq_ok _ he next

namespace Expr

/-- Makes a node anew from its own operands, with every check of its constructor. -/
def checked : Expr → Build ShapeError Expr
  | hole h => Checked.hole (.int h.width) h.name
  | node _ op _ args => op.checked (args.map .expr)
  | choose _ _ a b s => Checked.choose (.expr a) (.expr b) (.expr (.hole s))

/-- No check of its constructor turns a well-formed node down: with its tag next, the node itself is
what the constructor makes. -/
theorem WellFormed.checked_eq_ok {e : Expr} (h : e.WellFormed) :
    e.checked e.tag = .ok (e, e.tag + 1) := by
  cases e with
  | hole k => exact Checked.hole_eq_ok (wellFormed_hole.mp h) k.name k.tag
  | node t op s args =>
    obtain ⟨ht, hargs⟩ := wellFormed_node.mp h
    exact ht.checked_eq_ok (fun a ha => (hargs a ha).positive) t
  | choose t w a b s =>
    obtain ⟨⟨ha, hb, one⟩, -, -⟩ := wellFormed_choose.mp h
    exact Checked.choose_eq_ok ha hb one t

end Expr
end CircuitSketch
