import CircuitSketch.Evaluation.Interpret
import CircuitSketch.Proofs.Bits.Reading
import CircuitSketch.Proofs.Evaluation.Shared
import CircuitSketch.Proofs.Expr.WellFormed

/-!
# What evaluation does, and the shape of its values

`Op.Runs` says all that an operation can do when its operands have the shapes that the rule asks
for, with one case for each operation. It is the only place where `Op.eval` is opened. From it comes
that evaluation keeps shapes: the value of a well-formed expression has the shape of the expression,
over every bit algebra and with every choice of primitives.
-/
namespace CircuitSketch

theorem forall₂_of_mem {α β : Type} {R S : α → β → Prop} {xs : List α} {ys : List β}
    (h : List.Forall₂ R xs ys) (imp : ∀ x ∈ xs, ∀ y, R x y → S x y) : List.Forall₂ S xs ys :=
  ((List.forall₂_and_left _ _).mpr ⟨imp, h⟩).imp fun _ y hxy => hxy.1 y hxy.2

variable {β : Type}

namespace Value

/-- A value has a shape: a word its width, a list its length and one width for all items, and a
group a word of the declared width under every declared name. -/
def HasShape : Value β → Shape → Prop
  | word bits, .word w => bits.length = w
  | list items, .list w n => items.length = n ∧ ∀ b ∈ items, b.length = w
  | group fields, .group declared =>
    ∀ d ∈ declared, ∃ bits, fields.lookup d.1 = some bits ∧ bits.length = d.2
  | _, _ => False

theorem HasShape.exists_word {v : Value β} {w : Nat} (h : v.HasShape (.word w)) :
    ∃ bits, v = .word bits ∧ bits.length = w := by
  cases v with
  | word bits => exact ⟨bits, rfl, h⟩
  | list items => exact h.elim
  | group fields => exact h.elim

theorem HasShape.exists_list {v : Value β} {w n : Nat} (h : v.HasShape (.list w n)) :
    ∃ items, v = .list items ∧ items.length = n ∧ ∀ b ∈ items, b.length = w := by
  cases v with
  | word bits => exact h.elim
  | list items => exact ⟨items, rfl, h⟩
  | group fields => exact h.elim

theorem HasShape.exists_group {v : Value β} {declared : List (String × Nat)}
    (h : v.HasShape (.group declared)) :
    ∃ fields, v = .group fields ∧
      ∀ d ∈ declared, ∃ bits, fields.lookup d.1 = some bits ∧ bits.length = d.2 := by
  cases v with
  | word bits => exact h.elim
  | list items => exact h.elim
  | group fields => exact ⟨fields, rfl, h⟩

theorem HasShape.eq_word {bits : List β} {s : Shape} (h : (word bits).HasShape s) :
    s = .word bits.length := by
  cases s with
  | word w => exact congrArg Shape.word (Eq.symm h)
  | list w n => exact h.elim
  | group declared => exact h.elim

theorem HasShape.exists_eq_list {items : List (List β)} {s : Shape} (h : (list items).HasShape s) :
    ∃ w, s = .list w items.length := by
  cases s with
  | word w => exact h.elim
  | list w n => exact ⟨w, congrArg (Shape.list w) (Eq.symm h.1)⟩
  | group declared => exact h.elim

theorem exists_operand {args : List (Value β)} {s : Shape}
    (h : List.Forall₂ HasShape args [s]) : ∃ v, args = [v] ∧ v.HasShape s := by
  simp only [List.forall₂_cons_right_iff, List.forall₂_nil_right_iff] at h
  obtain ⟨v, _, hv, rfl, rfl⟩ := h
  exact ⟨v, rfl, hv⟩

theorem exists_operands {args : List (Value β)} {s t : Shape}
    (h : List.Forall₂ HasShape args [s, t]) :
    ∃ u v, args = [u, v] ∧ u.HasShape s ∧ v.HasShape t := by
  obtain ⟨u, rest, hu, hrest, rfl⟩ := List.forall₂_cons_right_iff.mp h
  obtain ⟨v, rfl, hv⟩ := exists_operand hrest
  exact ⟨u, v, rfl, hu, hv⟩

/-- Values that all have word shapes are words of these widths. -/
theorem exists_words {args : List (Value β)} {ws : List Nat}
    (h : List.Forall₂ HasShape args (ws.map .word)) :
    ∃ words : List (List β), args = words.map .word ∧ words.map List.length = ws := by
  induction ws generalizing args with
  | nil =>
    rw [List.map_nil, List.forall₂_nil_right_iff] at h
    exact ⟨[], h, rfl⟩
  | cons w ws ih =>
    obtain ⟨v, rest, hv, hrest, rfl⟩ := List.forall₂_cons_right_iff.mp h
    obtain ⟨bits, rfl, hbits⟩ := hv.exists_word
    obtain ⟨words, rfl, hwords⟩ := ih hrest
    exact ⟨bits :: words, rfl, by simp [hbits, hwords]⟩

@[simp] theorem words_map_word (ws : List (List β)) : words (ws.map .word) = .ok ws := by
  induction ws with
  | nil => rfl
  | cons w ws ih => simp [words, ih, bind, Except.bind]

/-- What goes on with the words of operands that are words goes on with these. -/
theorem of_bind_words {α : Type} {ws : List (List β)} {f : List (List β) → Except EvalError α}
    {a : α} (h : (words (ws.map .word) >>= f) = .ok a) : f ws = .ok a := by
  rw [words_map_word] at h
  exact h

end Value

/-- Every hole that is settled has as many bits as its width says. -/
def Context.Sized (c : Context β) : Prop :=
  ∀ h bits, c.decision h = some bits → bits.length = h.width

theorem length_dupExtend {w : Nat} {bits : List β} (ne : bits ≠ []) (h : bits.length ≤ w) :
    (dupExtend w bits).length = w := by
  unfold dupExtend
  rw [List.getLast?_eq_some_getLast ne]
  simp only [List.length_append, List.length_replicate]
  omega

/-- The width of the items of a list is that of the first one. -/
theorem length_headD {w : Nat} {items : List (List β)} (ne : items ≠ [])
    (same : ∀ b ∈ items, b.length = w) : (items.headD []).length = w := by
  obtain ⟨b, rest, rfl⟩ := List.exists_cons_of_ne_nil ne
  exact same b (by simp)

/-- A settled selector of one bit. -/
theorem selectorBit_eq_ok {c : Context β} {s : Hole} {bit : β} (hc : c.Sized) (hs : s.width = 1)
    (h : selectorBit c s = .ok bit) : c.decision s = some [bit] := by
  unfold selectorBit at h
  split at h
  · cases h
  · next b rest hd =>
    have hlen : (b :: rest).length = 1 := hs ▸ hc s _ hd
    have hrest : rest = [] := by simpa using hlen
    rw [hd, hrest, Except.ok.inj h]
  · cases h

/-- Words named by distinct keys are found under their keys. -/
theorem exists_lookup_zip {keys : List String} {words : List (List β)} (nodup : keys.Nodup)
    (length : keys.length = words.length) {d : String × Nat}
    (h : d ∈ keys.zip (words.map List.length)) :
    ∃ bits, (keys.zip words).lookup d.1 = some bits ∧ bits.length = d.2 := by
  rw [List.zip_map_right, List.mem_map] at h
  obtain ⟨⟨key, word⟩, hmem, rfl⟩ := h
  have hkeys : ((keys.zip words).map (·.1)).Nodup := by
    rwa [List.map_fst_zip length.le]
  exact ⟨word, lookup_of_mem hkeys hmem, rfl⟩

variable [BitAlgebra β]

@[simp] theorem length_constants (bits : List Bool) :
    (BitAlgebra.constants bits : List β).length = bits.length := by simp [BitAlgebra.constants]

@[simp] theorem length_select (c : β) (x y : List β) :
    (BitAlgebra.select c x y).length = min x.length y.length := by simp [BitAlgebra.select]

theorem length_zeroExtend {w : Nat} {bits : List β} (h : bits.length ≤ w) :
    (zeroExtend w bits).length = w := by
  simp only [zeroExtend, List.length_append, List.length_replicate]
  omega

/-- Weighing items of one width yields that width. -/
theorem length_foldl_select {w : Nat} (match? : Nat → β) (items : List (List β × Nat))
    (same : ∀ item ∈ items, item.1.length = w) (zero : List β) (hzero : zero.length = w) :
    (items.foldl (fun result item => BitAlgebra.select (match? item.2) result item.1) zero).length =
      w := by
  induction items generalizing zero with
  | nil => exact hzero
  | cons item items ih =>
    refine ih (fun i hi => same i (by simp [hi])) _ ?_
    simp [hzero, same item (by simp)]

theorem length_lookupItem {w : Nat} {items : List (List β)} (ne : items ≠ [])
    (same : ∀ b ∈ items, b.length = w) (index : List β) :
    (lookupItem items index).length = w := by
  have hzero : (List.replicate (items.headD []).length (BitAlgebra.const false : β)).length = w :=
    List.length_replicate.trans (length_headD ne same)
  unfold lookupItem
  simp only
  split
  · next bits _ =>
    rw [List.getD_eq_getElem?_getD]
    cases hb : items[Word.toNat bits]? with
    | none => simpa using hzero
    | some b => exact same b (List.mem_of_getElem? hb)
  · refine length_foldl_select _ _ (fun item hi => ?_) _ hzero
    exact same item.1 (List.fst_mem_of_mem_zipIdx hi)

/-- All that an operation can do: `op.Runs c args s v` says that operands of fitting shapes yield
the value `v` of shape `s`. -/
inductive Op.Runs (c : Context β) : Op → List (Value β) → Shape → Value β → Prop
  | const {w n : Nat} (fits : n < twoPow w) : Runs c (.const w n) [] (.word w) (wordOf w n)
  | var {name : String} {w : Nat} {n : Int} (known : c.input name = some n) :
      Runs c (.var name w) [] (.word w) (wordOf w n)
  | extract {lo hi : Nat} {b : List β} (le : lo ≤ hi) (lt : hi < b.length) :
      Runs c (.extract lo hi) [.word b] (.word (hi + 1 - lo))
        (.word ((b.drop lo).take (hi + 1 - lo)))
  | concat {words : List (List β)} :
      Runs c .concat (words.map .word) (.word (words.map List.length).sum)
        (.word words.reverse.flatten)
  | zeroExtend {w : Nat} {b : List β} (le : b.length ≤ w) :
      Runs c (.zeroExtend w) [.word b] (.word w) (.word (CircuitSketch.zeroExtend w b))
  | dupExtend {w : Nat} {b : List β} (ne : b ≠ []) (le : b.length ≤ w) :
      Runs c (.dupExtend w) [.word b] (.word w) (.word (CircuitSketch.dupExtend w b))
  | list {w : Nat} {words : List (List β)} (same : ∀ b ∈ words, b.length = w) :
      Runs c .list (words.map .word) (.list w words.length) (.list words)
  | item {p : Position} {w : Nat} {items : List (List β)} {b : List β}
      (same : ∀ b ∈ items, b.length = w) (found : items[p.toNat]? = some b) :
      Runs c (.item p) [.list items] (.word w) (.word b)
  | lookup {w : Nat} {items : List (List β)} {index : List β} (ne : items ≠ [])
      (same : ∀ b ∈ items, b.length = w) :
      Runs c .lookup [.list items, .word index] (.word w) (.word (lookupItem items index))
  | record {keys : List String} {words : List (List β)} (nodup : keys.Nodup)
      (length : keys.length = words.length) :
      Runs c (.record keys) (words.map .word) (.group (keys.zip (words.map List.length)))
        (.group (keys.zip words))
  | primitive {module : String} {ports : List String} {outputs : List (String × Nat)}
      {words : List (List β)} {p : Primitive} {fields : List (String × List β)}
      (length : ports.length = words.length) (known : c.modules module = some p)
      (ran : p.run (ports.zip words) = .ok fields)
      (produced : ∀ o ∈ outputs, produces fields o) :
      Runs c (.primitive module ports outputs) (words.map .word) (.group outputs) (.group fields)
  | output {key : String} {fields : List (String × List β)} {w : Nat} {b : List β}
      (found : fields.lookup key = some b) (length : b.length = w) :
      Runs c (.output key) [.group fields] (.word w) (.word b)
  | binary {op : BinaryOp} {a b : List β} {x y : List Bool} (same : b.length = a.length)
      (left : BitAlgebra.constants? a = some x) (right : BitAlgebra.constants? b = some y) :
      Runs c (.binary op) [.word a, .word b] (.word (if op.isComparison then 1 else a.length))
        (wordOf (if op.isComparison then 1 else a.length)
          (op.apply a.length (Word.toNat x) (Word.toNat y)))
  | unary {op : UnaryOp} {a : List β} {x : List Bool} (only : BitAlgebra.constants? a = some x) :
      Runs c (.unary op) [.word a] (.word a.length)
        (wordOf a.length (op.apply a.length (Word.toNat x)))

theorem operandNumber_eq_ok {op : String} {bits : List β} {n : Nat}
    (h : operandNumber op bits = .ok n) :
    ∃ x, BitAlgebra.constants? bits = some x ∧ n = Word.toNat x := by
  unfold operandNumber at h
  split at h
  · next x hx => exact ⟨x, hx, (Except.ok.inj h).symm⟩
  · cases h

/-- A placed primitive that yields a value is known, runs, and produces what it declares. -/
theorem placed_eq_ok {c : Context β} {module : String} {ports : List String}
    {outputs : List (String × Nat)} {words : List (List β)} {v : Value β}
    (h : placed c module ports outputs words = .ok v) :
    ∃ p fields, c.modules module = some p ∧ p.run (ports.zip words) = .ok fields ∧
      (∀ o ∈ outputs, produces fields o) ∧ v = .group fields := by
  unfold placed at h
  split at h
  · cases h
  · next p hp =>
    split at h
    · cases h
    · next fields hf =>
      split at h
      · cases h
      · next hfind =>
        refine ⟨p, fields, hp, hf, fun o ho => ?_, (Except.ok.inj h).symm⟩
        simpa using List.find?_eq_none.mp hfind o ho

/-- Evaluating an operation on operands of fitting shapes is one of the cases of `Op.Runs`. -/
theorem Op.Typed.runs {c : Context β} {op : Op} {shapes : List Shape} {s : Shape}
    {args : List (Value β)} {v : Value β} (ht : op.Typed shapes s)
    (hpos : ∀ x ∈ shapes, x.Positive) (ha : List.Forall₂ Value.HasShape args shapes)
    (hv : op.eval c args = .ok v) : op.Runs c args s v := by
  cases ht with
  | const pos fits =>
    rw [List.forall₂_nil_right_iff] at ha
    subst ha
    rw [Op.eval, Except.ok.injEq] at hv
    exact hv ▸ .const fits
  | var pos =>
    rw [List.forall₂_nil_right_iff] at ha
    subst ha
    rw [Op.eval] at hv
    split at hv
    · next n hn =>
      rw [Except.ok.injEq] at hv
      exact hv ▸ .var hn
    · cases hv
  | extract le lt =>
    obtain ⟨a, rfl, hs⟩ := Value.exists_operand ha
    obtain ⟨b, rfl, rfl⟩ := hs.exists_word
    rw [Op.eval, Except.ok.injEq] at hv
    exact hv ▸ .extract le lt
  | concat ne =>
    obtain ⟨words, rfl, rfl⟩ := Value.exists_words ha
    have hv := Value.of_bind_words hv
    rw [Except.ok.injEq] at hv
    exact hv ▸ .concat
  | zeroExtend le =>
    obtain ⟨a, rfl, hs⟩ := Value.exists_operand ha
    obtain ⟨b, rfl, rfl⟩ := hs.exists_word
    rw [Op.eval, Except.ok.injEq] at hv
    exact hv ▸ .zeroExtend le
  | @dupExtend n w le =>
    obtain ⟨a, rfl, hs⟩ := Value.exists_operand ha
    obtain ⟨b, rfl, rfl⟩ := hs.exists_word
    have hb : 0 < b.length := hpos (.word b.length) (by simp)
    rw [Op.eval, Except.ok.injEq] at hv
    exact hv ▸ .dupExtend (List.length_pos_iff.mp hb) le
  | @list w n pos =>
    rw [← List.map_replicate] at ha
    obtain ⟨words, rfl, hwords⟩ := Value.exists_words ha
    have hlen : words.length = n := by simpa using congrArg List.length hwords
    have hsame : ∀ b ∈ words, b.length = w := fun b hb =>
      List.eq_of_mem_replicate (hwords ▸ List.mem_map_of_mem hb)
    have hv := Value.of_bind_words hv
    rw [Except.ok.injEq] at hv
    exact hv ▸ hlen ▸ .list hsame
  | item lt =>
    obtain ⟨a, rfl, hs⟩ := Value.exists_operand ha
    obtain ⟨items, rfl, rfl, hsame⟩ := hs.exists_list
    rw [Op.eval] at hv
    split at hv
    · next b hb =>
      rw [Except.ok.injEq] at hv
      exact hv ▸ .item hsame hb
    · cases hv
  | @lookup w n i =>
    obtain ⟨a, x, rfl, hs, hx⟩ := Value.exists_operands ha
    obtain ⟨items, rfl, rfl, hsame⟩ := hs.exists_list
    obtain ⟨index, rfl, rfl⟩ := hx.exists_word
    have hitems : 0 < w ∧ 0 < items.length := hpos (.list w items.length) (by simp)
    rw [Op.eval, Except.ok.injEq] at hv
    exact hv ▸ .lookup (List.length_pos_iff.mp hitems.2) hsame
  | record nodup length =>
    obtain ⟨words, rfl, rfl⟩ := Value.exists_words ha
    have hv := Value.of_bind_words hv
    rw [Except.ok.injEq] at hv
    exact hv ▸ .record nodup (by simpa using length)
  | primitive length pos =>
    obtain ⟨words, rfl, rfl⟩ := Value.exists_words ha
    have hv := Value.of_bind_words hv
    obtain ⟨p, fields, hp, hf, hproduced, rfl⟩ := placed_eq_ok hv
    exact .primitive (by simpa using length) hp hf hproduced
  | @output key fields w known =>
    obtain ⟨a, rfl, hs⟩ := Value.exists_operand ha
    obtain ⟨found, rfl, hfound⟩ := hs.exists_group
    obtain ⟨b, hb, hlen⟩ := hfound (key, w) (Checked.mem_of_fieldWidth? known)
    simp only [Op.eval, hb, Except.ok.injEq] at hv
    exact hv ▸ .output hb hlen
  | @binary op n =>
    obtain ⟨p, q, rfl, hp, hq⟩ := Value.exists_operands ha
    obtain ⟨a, rfl, rfl⟩ := hp.exists_word
    obtain ⟨b, rfl, hlen⟩ := hq.exists_word
    obtain ⟨m, hm, hv⟩ := bind_eq_ok hv
    obtain ⟨n, hn, hv⟩ := bind_eq_ok hv
    obtain ⟨x, hx, rfl⟩ := operandNumber_eq_ok hm
    obtain ⟨y, hy, rfl⟩ := operandNumber_eq_ok hn
    exact Except.ok.inj hv ▸ .binary hlen hx hy
  | @unary op n =>
    obtain ⟨p, rfl, hp⟩ := Value.exists_operand ha
    obtain ⟨a, rfl, rfl⟩ := hp.exists_word
    obtain ⟨m, hm, hv⟩ := bind_eq_ok hv
    obtain ⟨x, hx, rfl⟩ := operandNumber_eq_ok hm
    exact Except.ok.inj hv ▸ .unary hx

theorem Op.Runs.hasShape {c : Context β} {op : Op} {args : List (Value β)} {s : Shape}
    {v : Value β} (h : op.Runs c args s v) : v.HasShape s := by
  cases h with
  | const fits => simp [wordOf, Value.HasShape]
  | var known => simp [wordOf, Value.HasShape]
  | extract le lt =>
    simp only [Value.HasShape, List.length_take, List.length_drop]
    omega
  | concat => simp [Value.HasShape, List.length_flatten, List.map_reverse, List.sum_reverse]
  | zeroExtend le => exact length_zeroExtend le
  | dupExtend ne le => exact length_dupExtend ne le
  | list same => exact ⟨rfl, same⟩
  | item same found => exact same _ (List.mem_of_getElem? found)
  | lookup ne same => exact length_lookupItem ne same _
  | record nodup length => exact fun d hd => exists_lookup_zip nodup length hd
  | primitive length known ran produced =>
    intro d hd
    have hp := produced d hd
    unfold produces at hp
    split at hp
    · next bits hbits => exact ⟨bits, hbits, by simpa using hp⟩
    · cases hp
  | output found length => exact length
  | binary same left right => simp [wordOf, Value.HasShape]
  | unary only => simp [wordOf, Value.HasShape]

namespace Expr

/-- The ways in which a choice has a value: its selector is constant and one side decides, or it is
not and both sides are mixed. -/
inductive Chosen (c : Context β) (a b : Expr) (bit : β) : Value β → Prop
  | ifOne {v : Value β} (one : BitAlgebra.constant? bit = some true) (right : eval c b = .ok v) :
      Chosen c a b bit v
  | ifZero {v : Value β} (zero : BitAlgebra.constant? bit = some false)
      (left : eval c a = .ok v) : Chosen c a b bit v
  | mixed {x y : List β} (free : BitAlgebra.constant? bit = none)
      (left : eval c a = .ok (.word x)) (right : eval c b = .ok (.word y)) :
      Chosen c a b bit (.word (BitAlgebra.select bit x y))

theorem eval_choose_eq_ok {c : Context β} {t w : Nat} {a b : Expr} {s : Hole} {v : Value β}
    (h : eval c (choose t w a b s) = .ok v) :
    ∃ bit, selectorBit c s = .ok bit ∧ Chosen c a b bit v := by
  rw [eval] at h
  split at h
  · cases h
  · next bit hbit =>
    refine ⟨bit, hbit, ?_⟩
    split at h
    · next hone => exact .ifOne hone h
    · next hzero => exact .ifZero hzero h
    · next hfree =>
      split at h
      · cases h
      · next y hy =>
        split at h
        · cases h
        · next x hx =>
          cases x <;> cases y <;> simp only [mix, Except.ok.injEq, reduceCtorEq] at h
          exact h ▸ .mixed hfree hx hy

theorem eval_node_eq_ok {c : Context β} {t : Nat} {op : Op} {s : Shape} {args : List Expr}
    {v : Value β} (h : eval c (node t op s args) = .ok v) :
    ∃ values, evalAll c args = .ok values ∧ op.eval c values = .ok v := by
  rw [eval] at h
  split at h
  · next values hvalues => exact ⟨values, hvalues, h⟩
  · cases h

/-- A well-formed operation on operands of the right shapes is one of the cases of `Op.Runs`. -/
theorem runs_of_hasShape {c : Context β} {t : Nat} {op : Op} {s : Shape} {args : List Expr}
    {values : List (Value β)} {v : Value β} (hw : (node t op s args).WellFormed)
    (hs : List.Forall₂ (fun a u => Value.HasShape u a.shape) args values)
    (hv : op.eval c values = .ok v) : op.Runs c values s v := by
  obtain ⟨ht, hargs⟩ := wellFormed_node.mp hw
  refine ht.runs (fun x hx => ?_) (List.forall₂_map_right_iff.mpr hs.flip) hv
  obtain ⟨a, ha, rfl⟩ := List.mem_map.mp hx
  exact (hargs a ha).positive

/-- Evaluation keeps shapes: whatever a well-formed expression evaluates to has its shape. -/
theorem eval_hasShape {c : Context β} (hc : c.Sized) {e : Expr} (hw : e.WellFormed) {v : Value β}
    (h : eval c e = .ok v) : v.HasShape e.shape := by
  induction e using Expr.induction generalizing v with
  | hole k =>
    rw [eval] at h
    split at h
    · next bits hbits =>
      rw [Except.ok.injEq] at h
      exact h ▸ hc k bits hbits
    · cases h
  | node t op s args ih =>
    obtain ⟨values, hvalues, hv⟩ := eval_node_eq_ok h
    have hargs := (wellFormed_node.mp hw).2
    have hs := forall₂_of_mem (evalAll_eq_ok.mp hvalues) fun a ha u hu => ih a ha (hargs a ha) hu
    exact (runs_of_hasShape hw hs hv).hasShape
  | choose t w a b s iha ihb =>
    obtain ⟨⟨ha, hb, -⟩, hwa, hwb⟩ := wellFormed_choose.mp hw
    obtain ⟨bit, -, hv⟩ := eval_choose_eq_ok h
    rw [ha] at iha
    rw [hb] at ihb
    cases hv with
    | ifOne one right => exact ihb hwb right
    | ifZero zero left => exact iha hwa left
    | @mixed x y free left right =>
      have hx : x.length = w := iha hwa left
      have hy : y.length = w := ihb hwb right
      simp [Value.HasShape, hx, hy]

theorem length_of_eval {c : Context β} (hc : c.Sized) {e : Expr} (hw : e.WellFormed) {w : Nat}
    (hs : e.shape = .word w) {bits : List β} (h : eval c e = .ok (.word bits)) :
    bits.length = w := by
  have hshape := eval_hasShape hc hw h
  rwa [hs] at hshape

/-- What the evaluation of a well-formed operation has done. -/
theorem runs_of_eval {c : Context β} (hc : c.Sized) {t : Nat} {op : Op} {s : Shape}
    {args : List Expr} {v : Value β} (hw : (node t op s args).WellFormed)
    (h : eval c (node t op s args) = .ok v) :
    ∃ values, evalAll c args = .ok values ∧ op.Runs c values s v := by
  obtain ⟨values, hvalues, hv⟩ := eval_node_eq_ok h
  have hargs := (wellFormed_node.mp hw).2
  have hs := forall₂_of_mem (evalAll_eq_ok.mp hvalues) fun a ha u hu =>
    eval_hasShape hc (hargs a ha) hu
  exact ⟨values, hvalues, runs_of_hasShape hw hs hv⟩

end Expr

theorem sized_concrete (env : Valuation) (σ : Assignment) (modules : ModuleTable) :
    (Context.concrete env σ modules).Sized := by
  intro h bits hbits
  obtain ⟨value, -, rfl⟩ := Option.map_eq_some_iff.mp hbits
  exact Word.length_ofInt _ _

namespace Expr

theorem interpret_of_eval {e : Expr} {env : Valuation} {σ : Assignment} {modules : ModuleTable}
    {bits : List Bool} (hword : e.isWord)
    (h : eval (.concrete env σ modules) e = .ok (.word bits)) :
    e.interpret env σ modules = .ok (Word.toNat bits) := by
  rw [interpret, evaluate_eq_eval, h, if_pos hword]
  rfl

/-- What is interpreted as a number evaluates to bits that hold it. -/
theorem exists_bits_of_interpret {e : Expr} {env : Valuation} {σ : Assignment}
    {modules : ModuleTable} {n : Nat} (hw : e.WellFormed)
    (h : e.interpret env σ modules = .ok n) :
    ∃ bits, eval (.concrete env σ modules) e = .ok (.word bits) ∧ bits.length = e.width ∧
      n = Word.toNat bits := by
  unfold interpret at h
  split at h
  · next hword =>
    rw [evaluate_eq_eval] at h
    split at h
    · next v hv =>
      have hshape := eval_hasShape (sized_concrete env σ modules) hw hv
      rw [isWord_iff.mp hword] at hshape
      obtain ⟨bits, rfl, hlen⟩ := hshape.exists_word
      exact ⟨bits, hv, hlen, (Except.ok.inj h).symm⟩
    · cases h
  · cases h

end Expr
end CircuitSketch
