import CircuitSketch.Proofs.Evaluation.Shape

/-!
# Symbolic and concrete evaluation

Evaluation over any bit algebra, read bit by bit, is evaluation over truth values: the symbolic
choice mixes both sides where the concrete one enters a single side, and the symbolic lookup weighs
every item where the concrete one picks one. The two lookups agree as long as the list has no more
items than the index has values.
-/
namespace CircuitSketch

/-- Weighing items by conditions that all fail leaves the result as it is. -/
theorem foldl_select_of_none {w : Nat} (select : Nat → Bool) (items : List (List Bool))
    (same : ∀ b ∈ items, b.length = w) (start : Nat) (result : List Bool)
    (hresult : result.length = w)
    (none : ∀ p, start ≤ p → p < start + items.length → select p = false) :
    (items.zipIdx start).foldl
        (fun result item => BitAlgebra.select (select item.2) result item.1) result = result := by
  induction items generalizing start with
  | nil => rfl
  | cons b items ih =>
    have hb : b.length = w := same b (by simp)
    have hstart : select start = false := none start le_rfl (by simp)
    rw [List.zipIdx_cons, List.foldl_cons]
    simp only [hstart, select_bool _ (hresult.trans hb.symm), Bool.false_eq_true, if_false]
    refine ih (fun x hx => same x (by simp [hx])) (start + 1) fun p hp hlt => ?_
    exact none p (by omega) (by simp only [List.length_cons]; omega)

/-- Weighing items by conditions takes the item at the last position whose condition holds. -/
theorem foldl_select_of_last {w : Nat} (select : Nat → Bool) (items : List (List Bool))
    (same : ∀ b ∈ items, b.length = w) (start : Nat) (result : List Bool)
    (hresult : result.length = w) {p : Nat} (hp : select p) (ge : start ≤ p)
    (lt : p < start + items.length)
    (last : ∀ q, p < q → q < start + items.length → select q = false) :
    (items.zipIdx start).foldl
        (fun result item => BitAlgebra.select (select item.2) result item.1) result =
      items.getD (p - start) result := by
  induction items generalizing start result with
  | nil =>
    rw [List.length_nil] at lt
    omega
  | cons b items ih =>
    have hb : b.length = w := same b (by simp)
    have hsame : ∀ x ∈ items, x.length = w := fun x hx => same x (by simp [hx])
    have hlen : start + 1 + items.length = start + (b :: items).length := by
      simp only [List.length_cons]
      omega
    rw [List.zipIdx_cons, List.foldl_cons]
    by_cases h : start = p
    · subst h
      simp only [hp, select_bool _ (hresult.trans hb.symm), if_true]
      rw [foldl_select_of_none select items hsame _ _ hb fun q hq hlt => last q hq (hlen ▸ hlt)]
      simp
    · obtain ⟨i, hi⟩ : ∃ i, p - start = i + 1 := ⟨p - start - 1, by omega⟩
      have hi' : p - (start + 1) = i := by omega
      have hlt : i < items.length := by omega
      have hnext : (BitAlgebra.select (select start) result b).length = w := by
        simp [hresult, hb]
      rw [ih hsame _ _ hnext (by omega) (hlen ▸ lt) fun q hq hlt => last q hq (hlen ▸ hlt), hi, hi']
      simp [List.getD_eq_getElem?_getD, hlt]

/-- Weighing items by conditions of which at most one holds takes the item at its position. -/
theorem foldl_select_of_iff {w : Nat} (select : Nat → Bool) (items : List (List Bool))
    (same : ∀ b ∈ items, b.length = w) (result : List Bool) (hresult : result.length = w) {p : Nat}
    (only : ∀ q, q < items.length → (select q ↔ p = q)) :
    items.zipIdx.foldl
        (fun result item => BitAlgebra.select (select item.2) result item.1) result =
      items.getD p result := by
  have hother : ∀ q, q < 0 + items.length → q ≠ p → select q = false := by
    intro q hlt hq
    rw [← Bool.not_eq_true, only q (by omega)]
    exact hq.symm
  by_cases hp : p < items.length
  · exact foldl_select_of_last select items same 0 result hresult ((only p hp).mpr rfl)
      (Nat.zero_le p) (by omega) fun q hq hlt => hother q hlt hq.ne'
  · rw [foldl_select_of_none select items same 0 result hresult fun q _ hlt => hother q hlt (by omega),
      List.getD_eq_getElem?_getD, List.getElem?_eq_none (by omega), Option.getD_none]

variable {β γ : Type} {f : β → γ}

/-- A value read bit by bit. -/
def Value.read (f : β → γ) : Value β → Value γ
  | word bits => .word (bits.map f)
  | list items => .list (items.map (List.map f))
  | group fields => .group (readWords f fields)

/-- The second context is the first one read bit by bit. -/
structure Context.Reads (f : β → γ) (c : Context β) (d : Context γ) : Prop where
  input : c.input = d.input
  modules : c.modules = d.modules
  decision : ∀ {h bits}, c.decision h = some bits → d.decision h = some (bits.map f)

theorem map_dupExtend (w : Nat) (bits : List β) :
    (dupExtend w bits).map f = dupExtend w (bits.map f) := by
  unfold dupExtend
  rw [List.getLast?_map]
  cases bits.getLast? <;> simp

theorem produces_readWords {fields : List (String × List β)} {declared : String × Nat}
    (h : produces fields declared) : produces (readWords f fields) declared := by
  unfold produces at h ⊢
  rw [lookup_readWords]
  cases hl : fields.lookup declared.1 <;> simp_all

theorem words_read (words : List (List β)) :
    (words.map Value.word).map (Value.read f) = (words.map (List.map f)).map .word := by
  simp [Value.read]

variable [BitAlgebra β] [BitAlgebra γ]

namespace IsReading

/-- The word that a lookup yields where there is no item to yield. -/
theorem map_zeros (hf : IsReading f) (items : List (List β)) :
    (List.replicate (items.headD []).length (BitAlgebra.const false : β)).map f =
      List.replicate ((items.map (List.map f)).headD []).length (BitAlgebra.const false) := by
  cases items <;> simp [hf.const]

/-- A lookup whose index is known to be constant. -/
theorem map_lookupItem_of_constants? (hf : IsReading f) (items : List (List β)) {index : List β}
    {bits : List Bool} (h : BitAlgebra.constants? index = some bits) :
    (lookupItem items index).map f = lookupItem (items.map (List.map f)) (index.map f) := by
  rw [lookupItem, lookupItem, h, hf.constants?_map h, ← hf.map_zeros]
  simp only [List.getD_eq_getElem?_getD, List.getElem?_map]
  cases items[Word.toNat bits]? <;> rfl

section Truth

variable {f : β → Bool}

/-- Index bits hold a position when they stand for it modulo what they can count. -/
theorem holdsPosition_iff (hf : IsReading f) (index : List β) (position : Nat) :
    f (holdsPosition index position) ↔
      Word.toNat (index.map f) = position % twoPow index.length := by
  rw [holdsPosition, hf.foldl_testBit_iff, hf.const]
  exact and_iff_right rfl

theorem map_foldl_select (hf : IsReading f) (select : Nat → β) (items : List (List β)) (start : Nat)
    (result : List β) :
    ((items.zipIdx start).foldl
        (fun result item => BitAlgebra.select (select item.2) result item.1) result).map f =
      ((items.map (List.map f)).zipIdx start).foldl
        (fun result item => BitAlgebra.select (f (select item.2)) result item.1)
        (result.map f) := by
  induction items generalizing start result with
  | nil => rfl
  | cons b items ih =>
    rw [List.map_cons, List.zipIdx_cons, List.zipIdx_cons, List.foldl_cons, List.foldl_cons, ih,
      hf.map_select]

/-- A lookup among no more items than the index has values. -/
theorem map_lookupItem (hf : IsReading f) {w : Nat} {items : List (List β)} {index : List β}
    (ne : items ≠ []) (same : ∀ b ∈ items, b.length = w)
    (fits : items.length ≤ twoPow index.length) :
    (lookupItem items index).map f = lookupItem (items.map (List.map f)) (index.map f) := by
  cases hconst : BitAlgebra.constants? index with
  | some bits => exact hf.map_lookupItem_of_constants? items hconst
  | none =>
    have hread : lookupItem (items.map (List.map f)) (index.map f) =
        (items.map (List.map f)).getD (Word.toNat (index.map f))
          (List.replicate ((items.map (List.map f)).headD []).length (BitAlgebra.const false)) := by
      rw [lookupItem, constants?_bool]
    rw [hread, ← hf.map_zeros, lookupItem, hconst]
    have hlen : (List.replicate (items.headD []).length (BitAlgebra.const false : β)).length = w :=
      List.length_replicate.trans (length_headD ne same)
    have hsame : ∀ b ∈ items.map (List.map f), b.length = w := by
      intro b hb
      obtain ⟨x, hx, rfl⟩ := List.mem_map.mp hb
      simpa using same x hx
    rw [hf.map_foldl_select]
    refine foldl_select_of_iff (fun p => f (holdsPosition index p)) _ hsame _
      ((List.length_map f).trans hlen) fun p hp => ?_
    rw [List.length_map] at hp
    rw [hf.holdsPosition_iff, Nat.mod_eq_of_lt (hp.trans_le fits)]

end Truth

theorem map_zeroExtend (hf : IsReading f) (w : Nat) (bits : List β) :
    (zeroExtend w bits).map f = zeroExtend w (bits.map f) := by
  simp [zeroExtend, hf.const]

end IsReading

theorem IsReading.read_wordOf (hf : IsReading f) (w : Nat) (n : Int) :
    (wordOf w n : Value β).read f = wordOf w n := by
  simp only [wordOf, Value.read, hf.map_constants]

/-- What an operation yields over one algebra, read bit by bit, is what it yields over the other
from what is read, if that is so for a lookup. -/
theorem Op.Runs.read {c : Context β} {d : Context γ} (hf : IsReading f) (hcd : c.Reads f d)
    {op : Op} {args : List (Value β)} {s : Shape} {v : Value β} (h : op.Runs c args s v)
    (lookups : ∀ w items index, op = .lookup → args = [.list items, .word index] → items ≠ [] →
      (∀ b ∈ items, b.length = w) →
        (lookupItem items index).map f = lookupItem (items.map (List.map f)) (index.map f)) :
    op.eval d (args.map (Value.read f)) = .ok (v.read f) := by
  cases h with
  | const hn =>
    rw [hf.read_wordOf]
    rfl
  | @var name w n known =>
    rw [hf.read_wordOf, List.map_nil, Op.eval, ← hcd.input, known]
  | extract le lt =>
    simp [Op.eval, Value.read]
  | concat =>
    rw [words_read, Op.eval, Value.words_map_word]
    simp [bind, Except.bind, Value.read, List.map_flatten]
  | zeroExtend le =>
    simp [Op.eval, Value.read, hf.map_zeroExtend]
  | dupExtend ne le =>
    simp [Op.eval, Value.read, map_dupExtend]
  | list same =>
    rw [words_read, Op.eval, Value.words_map_word]
    rfl
  | item same found =>
    simp [Op.eval, Value.read, found]
  | @lookup w items index ne same =>
    simp [Op.eval, Value.read, lookups w items index rfl rfl ne same]
  | record nodup length =>
    rw [words_read, Op.eval, Value.words_map_word]
    simp [bind, Except.bind, Value.read, readWords_zip]
  | @primitive module ports outputs words p fields length known ran produced =>
    have hrun := Primitive.run_read hf p ran
    rw [readWords_zip] at hrun
    have hfind : (outputs.find? fun o => !produces (readWords f fields) o) = none := by
      rw [List.find?_eq_none]
      intro o ho
      simp [produces_readWords (produced o ho)]
    rw [words_read, Op.eval, Value.words_map_word]
    simp [bind, Except.bind, placed, ← hcd.modules, known, hrun, hfind, Value.read]
  | output found length =>
    simp [Op.eval, Value.read, lookup_readWords, found]
  | @binary op a b x y same left right =>
    have hx := hf.constants?_map left
    have hy := hf.constants?_map right
    rw [hf.read_wordOf]
    simp [Op.eval, Value.read, operandNumber, bind, Except.bind, hx, hy]
  | @unary op a x only =>
    have hx := hf.constants?_map only
    rw [hf.read_wordOf]
    simp [Op.eval, Value.read, operandNumber, bind, Except.bind, hx]

namespace Expr

/-- Lists that are read by position have allowed lengths: `Allowed n k` allows a list of `n` items
to be read by an index of `k` bits. -/
def LooksUp (Allowed : Nat → Nat → Prop) (e : Expr) : Prop :=
  ∀ t s items index w n k, node t .lookup s [items, index] ∈ e.preorder →
    items.shape = .list w n → index.shape = .word k → Allowed n k

/-- No list has more items than the words that read it have values. -/
def ListsFit (e : Expr) : Prop := e.LooksUp fun n k => n ≤ twoPow k

theorem LooksUp.of_mem {Allowed : Nat → Nat → Prop} {x e : Expr} (h : e.LooksUp Allowed)
    (hx : x ∈ e.preorder) : x.LooksUp Allowed :=
  fun t s items index w n k hl => h t s items index w n k (mem_preorder_trans hl hx)

theorem LooksUp.of_operands {c : Context β} {Allowed : Nat → Nat → Prop} {t : Nat} {s : Shape}
    {args : List Expr} {items : List (List β)} {index : List β} (hc : c.Sized)
    (h : (node t .lookup s args).LooksUp Allowed) (hw : (node t .lookup s args).WellFormed)
    (hv : evalAll c args = .ok [.list items, .word index]) :
    Allowed items.length index.length := by
  have hargs := (wellFormed_node.mp hw).2
  obtain ⟨x, rest, hx, hrest, rfl⟩ := List.forall₂_cons_right_iff.mp (evalAll_eq_ok.mp hv)
  obtain ⟨y, last, hy, hlast, rfl⟩ := List.forall₂_cons_right_iff.mp hrest
  rw [List.forall₂_nil_right_iff] at hlast
  subst hlast
  obtain ⟨w, hlist⟩ := (eval_hasShape hc (hargs x (by simp)) hx).exists_eq_list
  have hword := (eval_hasShape hc (hargs y (by simp)) hy).eq_word
  exact h t s x y w _ _ (mem_preorder_self _) hlist hword

section Steps

variable {f : β → γ} {c : Context β} {d : Context γ}

omit [BitAlgebra β] [BitAlgebra γ] in
theorem selectorBit_read (hc : c.Sized) (hcd : c.Reads f d) {s : Hole} (hs : s.width = 1) {bit : β}
    (h : selectorBit c s = .ok bit) : selectorBit d s = .ok (f bit) := by
  rw [selectorBit, hcd.decision (selectorBit_eq_ok hc hs h)]
  rfl

theorem eval_hole_read (hcd : c.Reads f d) {k : Hole} {v : Value β} (h : eval c (.hole k) = .ok v) :
    eval d (.hole k) = .ok (v.read f) := by
  rw [eval] at h
  split at h
  · next bits hbits =>
    rw [Except.ok.injEq] at h
    rw [eval, hcd.decision hbits, ← h]
    rfl
  · cases h

/-- An operation whose operands are read bit by bit, if a lookup is. -/
theorem eval_node_read (hf : IsReading f) (hc : c.Sized) (hcd : c.Reads f d) {t : Nat} {op : Op}
    {s : Shape} {args : List Expr} (hw : (node t op s args).WellFormed)
    (operands : ∀ a ∈ args, ∀ v, eval c a = .ok v → eval d a = .ok (v.read f))
    (lookups : ∀ w items index, op = .lookup → evalAll c args = .ok [.list items, .word index] →
      items ≠ [] → (∀ b ∈ items, b.length = w) →
        (lookupItem items index).map f = lookupItem (items.map (List.map f)) (index.map f))
    {v : Value β} (h : eval c (node t op s args) = .ok v) :
    eval d (node t op s args) = .ok (v.read f) := by
  obtain ⟨values, hvalues, hruns⟩ := runs_of_eval hc hw h
  have hread : evalAll d args = .ok (values.map (Value.read f)) := by
    rw [evalAll_eq_ok, List.forall₂_map_right_iff]
    exact forall₂_of_mem (evalAll_eq_ok.mp hvalues) operands
  rw [eval, hread]
  exact hruns.read hf hcd fun w items index hop hvals => lookups w items index hop (hvals ▸ hvalues)

end Steps

/-- Evaluation over any algebra, read bit by bit, is evaluation over truth values. -/
theorem eval_read {f : β → Bool} {c : Context β} {d : Context Bool} (hf : IsReading f)
    (hc : c.Sized) (hcd : c.Reads f d) {e : Expr} (hw : e.WellFormed) (fits : e.ListsFit) {v : Value β}
    (h : eval c e = .ok v) : eval d e = .ok (v.read f) := by
  induction e using Expr.induction generalizing v with
  | hole k => exact eval_hole_read hcd h
  | node t op s args ih =>
    have hargs := (wellFormed_node.mp hw).2
    refine eval_node_read hf hc hcd hw (fun a ha u hu => ih a ha (hargs a ha) ?_ hu)
      (fun w items index hop hvalues ne same => ?_) h
    · exact fits.of_mem (mem_preorder_node.mpr (.inr ⟨a, ha, a.mem_preorder_self⟩))
    · exact hf.map_lookupItem ne same ((hop ▸ fits).of_operands hc (hop ▸ hw) hvalues)
  | choose t w a b s iha ihb =>
    obtain ⟨⟨ha, hb, hs⟩, hwa, hwb⟩ := wellFormed_choose.mp hw
    have hfa := fits.of_mem (mem_preorder_choose.mpr (.inr (.inl a.mem_preorder_self)))
    have hfb := fits.of_mem (mem_preorder_choose.mpr (.inr (.inr (.inl b.mem_preorder_self))))
    obtain ⟨bit, hbit, hv⟩ := eval_choose_eq_ok h
    rw [eval, selectorBit_read hc hcd hs hbit]
    cases hv with
    | ifOne one right =>
      simp only [hf.constant one]
      exact ihb hwb hfb right
    | ifZero zero left =>
      simp only [hf.constant zero]
      exact iha hwa hfa left
    | @mixed x y free left right =>
      have hx := length_of_eval hc hwa ha left
      have hy := length_of_eval hc hwb hb right
      have hlen : (x.map f).length = (y.map f).length := by simp [hx, hy]
      simp only [Value.read, hf.map_select, select_bool _ hlen]
      cases f bit with
      | false => exact iha hwa hfa left
      | true => exact ihb hwb hfb right

/-- Evaluation over truth values, read as constants of any algebra, is evaluation over that
algebra: a constant selector decides a choice at once, and a constant index a lookup. -/
theorem eval_read_of_bool {f : Bool → γ} {c : Context Bool} {d : Context γ} (hf : IsReading f)
    (hc : c.Sized) (hcd : c.Reads f d) {e : Expr} (hw : e.WellFormed) {v : Value Bool}
    (h : eval c e = .ok v) : eval d e = .ok (v.read f) := by
  induction e using Expr.induction generalizing v with
  | hole k => exact eval_hole_read hcd h
  | node t op s args ih =>
    have hargs := (wellFormed_node.mp hw).2
    exact eval_node_read hf hc hcd hw (fun a ha u hu => ih a ha (hargs a ha) hu)
      (fun _ items index _ _ _ _ => hf.map_lookupItem_of_constants? items (constants?_bool index)) h
  | choose t w a b s iha ihb =>
    obtain ⟨⟨-, -, hs⟩, hwa, hwb⟩ := wellFormed_choose.mp hw
    obtain ⟨bit, hbit, hv⟩ := eval_choose_eq_ok h
    rw [eval, selectorBit_read hc hcd hs hbit]
    cases hv with
    | ifOne one right =>
      simp only [hf.constant one]
      exact ihb hwb right
    | ifZero zero left =>
      simp only [hf.constant zero]
      exact iha hwa left
    | mixed free left right => cases free

end Expr
end CircuitSketch
