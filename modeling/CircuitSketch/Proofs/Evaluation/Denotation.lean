import CircuitSketch.Proofs.Bits.Primitive
import CircuitSketch.Proofs.Evaluation.Operator
import CircuitSketch.Proofs.Evaluation.Shape

/-!
# What expressions mean

A meaning for expressions that knows neither bits nor sharing: by structural recursion every node is
given a number, a list of numbers or named numbers, each with its width. Interpretation, which works
on bits and evaluates shared parts once, yields the number that an expression means.
-/
namespace CircuitSketch

/-- What a node means: a number, a list of numbers, or named numbers. -/
inductive Meaning
  | word (x : Numeral)
  | list (items : List Numeral)
  | group (fields : List (String × Numeral))

/-- The number that a word means. -/
def Meaning.numeral : Meaning → Numeral
  | word x => x
  | _ => ⟨0, 0⟩

/-- A number written above another. -/
def Numeral.join (high low : Numeral) : Numeral :=
  ⟨high.width + low.width, high.value * twoPow low.width + low.value⟩

/-- A number with ones above when its top bit is set. -/
def Numeral.dupExtend (width : Nat) (x : Numeral) : Numeral :=
  ⟨width, if x.value.testBit (x.width - 1) then x.value + (twoPow width - twoPow x.width)
    else x.value⟩

/-- The item of a list at a position, and zero past the end. -/
def Numeral.item (items : List Numeral) (position : Nat) : Numeral :=
  items.getD position ⟨(items.headD ⟨0, 0⟩).width, 0⟩

/-- The number given for a hole. -/
def Assignment.number (σ : Assignment) (h : Hole) : Int := (σ[h]?.map HoleValue.toInt).getD 0

/-- What an operation means from what its operands mean. -/
def Op.denote (env : Valuation) (op : Op) (args : List Meaning) : Meaning :=
  match op, args with
  | .const width value, _ => .word ⟨width, value⟩
  | .var name width, _ => .word ⟨width, ((env.lookup name).getD 0 % twoPow width).toNat⟩
  | .extract lo hi, [.word x] =>
    .word ⟨hi - lo + 1, (x.value >>> lo) % twoPow (hi - lo + 1)⟩
  | .concat, args => .word ((args.map Meaning.numeral).foldl Numeral.join ⟨0, 0⟩)
  | .zeroExtend width, [.word x] => .word ⟨width, x.value⟩
  | .dupExtend width, [.word x] => .word (x.dupExtend width)
  | .list, args => .list (args.map Meaning.numeral)
  | .item position, [.list items] => .word (Numeral.item items position.toNat)
  | .lookup, [.list items, .word index] => .word (Numeral.item items index.value)
  | .record keys, args => .group (keys.zip (args.map Meaning.numeral))
  | .primitive module ports _, args =>
    .group (Primitive.denote module (ports.zip (args.map Meaning.numeral)))
  | .output key, [.group fields] => .word ((fields.lookup key).getD ⟨0, 0⟩)
  | .binary op, [.word x, .word y] =>
    .word ⟨if op.isComparison then 1 else x.width, op.denote x.width x.value y.value⟩
  | .unary op, [.word x] => .word ⟨x.width, op.denote x.width x.value⟩
  | _, _ => .word ⟨0, 0⟩

namespace Expr

mutual
/-- What an expression means. -/
def denote (env : Valuation) (σ : Assignment) : Expr → Meaning
  | hole h => .word ⟨h.width, (σ.number h % twoPow h.width).toNat⟩
  | node _ op _ args => op.denote env (denoteAll env σ args)
  | choose _ _ a b s => if σ.number s % 2 = 1 then denote env σ b else denote env σ a

/-- What several expressions mean. -/
def denoteAll (env : Valuation) (σ : Assignment) : List Expr → List Meaning
  | [] => []
  | e :: rest => denote env σ e :: denoteAll env σ rest
end

end Expr

/-- What a value over truth values means. -/
def Value.meaning : Value Bool → Meaning
  | word bits => .word (Word.numeral bits)
  | list items => .list (items.map Word.numeral)
  | group fields => .group (Primitive.numerals fields)

theorem meaning_wordOf (w : Nat) (n : Int) :
    (wordOf w n : Value Bool).meaning = .word ⟨w, (n % twoPow w).toNat⟩ := by
  rw [wordOf, constants_bool, Value.meaning, Word.numeral, Word.length_ofInt, Word.toNat_ofInt]

theorem numerals_of_words (words : List (List Bool)) :
    ((words.map Value.word).map Value.meaning).map Meaning.numeral = words.map Word.numeral := by
  simp [Value.meaning, Meaning.numeral, Function.comp_def]

theorem foldl_join (words : List (List Bool)) (top : List Bool) :
    (words.map Word.numeral).foldl Numeral.join (Word.numeral top) =
      Word.numeral (words.reverse.flatten ++ top) := by
  induction words generalizing top with
  | nil => rfl
  | cons w words ih =>
    have hjoin : (Word.numeral top).join (Word.numeral w) = Word.numeral (w ++ top) := by
      simp only [Numeral.join, Word.numeral, List.length_append, Word.toNat_append, Nat.add_comm,
        Nat.mul_comm]
    rw [List.map_cons, List.foldl_cons, hjoin, ih]
    simp

theorem numeral_zeroExtend {w : Nat} {bits : List Bool} (h : bits.length ≤ w) :
    Word.numeral (zeroExtend w bits) = ⟨w, Word.toNat bits⟩ := by
  rw [Word.numeral, length_zeroExtend h, zeroExtend, Word.toNat_append]
  simp [BitAlgebra.const]

theorem numeral_dupExtend {w : Nat} {bits : List Bool} (ne : bits ≠ []) (h : bits.length ≤ w) :
    Word.numeral (dupExtend w bits) = (Word.numeral bits).dupExtend w := by
  have htop : (Word.toNat bits).testBit (bits.length - 1) = bits.getLast ne := by
    rw [Word.testBit_toNat, List.getD_eq_getElem?_getD, ← List.getLast?_eq_getElem?,
      List.getLast?_eq_some_getLast ne]
    rfl
  have hpow : twoPow w = twoPow bits.length * twoPow (w - bits.length) := by
    rw [← twoPow_add]
    congr
    omega
  rw [Numeral.dupExtend, Word.numeral, Word.numeral, length_dupExtend ne h, htop, dupExtend,
    List.getLast?_eq_some_getLast ne]
  simp only [Word.toNat_append]
  cases bits.getLast ne with
  | false => simp
  | true => simp [Word.toNat_replicate_true, hpow, Nat.mul_sub]

theorem numeral_item {items : List (List Bool)} {p : Nat} {w : Nat} (ne : items ≠ [])
    (same : ∀ b ∈ items, b.length = w) (zero : List Bool) (hzero : zero.length = w)
    (hvalue : Word.toNat zero = 0) :
    Word.numeral (items.getD p zero) = Numeral.item (items.map Word.numeral) p := by
  obtain ⟨b, rest, rfl⟩ := List.exists_cons_of_ne_nil ne
  have hb : b.length = w := same b (by simp)
  rw [Numeral.item, List.getD_eq_getElem?_getD, List.getD_eq_getElem?_getD, List.getElem?_map]
  cases (b :: rest)[p]? with
  | none => simp [Word.numeral, hzero, hvalue, hb]
  | some x => rfl

/-- What an operation yields over truth values means what the operation means. -/
theorem Op.Runs.denote {env : Valuation} {σ : Assignment} {op : Op} {args : List (Value Bool)}
    {s : Shape} {v : Value Bool} (h : op.Runs (.concrete env σ Primitive.standard) args s v) :
    op.denote env (args.map Value.meaning) = v.meaning := by
  cases h with
  | @const w n fits =>
    rw [meaning_wordOf, ← Int.natCast_emod, Int.toNat_natCast, Nat.mod_eq_of_lt fits]
    rfl
  | @var name w n known =>
    rw [meaning_wordOf]
    simp only [Op.denote]
    rw [show env.lookup name = some n from known]
    rfl
  | @extract lo hi b le lt =>
    have hlen : ((b.drop lo).take (hi + 1 - lo)).length = hi + 1 - lo := by
      rw [List.length_take, List.length_drop]
      omega
    have hwidth : hi - lo + 1 = hi + 1 - lo := by omega
    simp only [List.map_cons, List.map_nil, Value.meaning, Op.denote, Word.numeral, hlen, hwidth,
      Word.toNat_take, Word.toNat_drop, Nat.shiftRight_eq_div_pow, twoPow_eq]
  | @concat words =>
    have hjoin := foldl_join words []
    rw [List.append_nil] at hjoin
    rw [Value.meaning, ← hjoin, Op.denote, numerals_of_words]
    rfl
  | zeroExtend le =>
    simp only [List.map_cons, List.map_nil, Value.meaning, Op.denote, numeral_zeroExtend le]
    rfl
  | dupExtend ne le =>
    simp only [List.map_cons, List.map_nil, Value.meaning, Op.denote, numeral_dupExtend ne le]
  | list same =>
    rw [Op.denote, numerals_of_words]
    rfl
  | @item p w items b same found =>
    simp only [List.map_cons, List.map_nil, Value.meaning, Op.denote, Numeral.item,
      List.getD_eq_getElem?_getD, List.getElem?_map, found]
    rfl
  | @lookup w items index ne same =>
    have hitem := numeral_item (p := Word.toNat index) ne same
      (List.replicate (items.headD []).length false)
      (List.length_replicate.trans (length_headD ne same)) (Word.toNat_replicate_false _)
    simp only [List.map_cons, List.map_nil, Value.meaning, Op.denote, lookupItem, constants?_bool]
    exact congrArg Meaning.word hitem.symm
  | @record keys words nodup length =>
    rw [Op.denote, numerals_of_words, Value.meaning, Primitive.numerals, List.zip_map_right]
    rfl
  | @primitive module ports outputs words p fields length known ran produced =>
    have hports : Primitive.numerals (ports.zip words) = ports.zip (words.map Word.numeral) := by
      rw [Primitive.numerals, List.zip_map_right]
      rfl
    rw [Op.denote, numerals_of_words, Value.meaning, ← Primitive.denote_numerals known ran, hports]
  | @output key fields w b found length =>
    simp only [List.map_cons, List.map_nil, Value.meaning, Op.denote, Primitive.lookup_numerals,
      found]
    rfl
  | @binary op a b x y same left right =>
    rw [constants?_bool, Option.some.injEq] at left right
    subst left right
    have ha := Word.toNat_lt a
    have hb := Word.toNat_lt b
    rw [same] at hb
    have hlt := op.denote_lt a.length (Word.toNat a) (Word.toNat b)
    rw [op.apply_eq_denote ha hb, meaning_wordOf, ← Int.natCast_emod, Int.toNat_natCast,
      Nat.mod_eq_of_lt hlt]
    rfl
  | @unary op a x only =>
    rw [constants?_bool, Option.some.injEq] at only
    subst only
    have hlt := op.denote_lt a.length (Word.toNat a)
    rw [op.apply_eq_denote (Word.toNat_lt a), meaning_wordOf, ← Int.natCast_emod,
      Int.toNat_natCast, Nat.mod_eq_of_lt hlt]
    rfl

namespace Expr

theorem denoteAll_eq_map {env : Valuation} {σ : Assignment} {args : List Expr}
    {values : List (Value Bool)}
    (h : List.Forall₂ (fun a v => denote env σ a = Value.meaning v) args values) :
    denoteAll env σ args = values.map Value.meaning := by
  induction h with
  | nil => rfl
  | cons hx _ ih => rw [denoteAll, hx, ih, List.map_cons]

/-- Whatever an expression evaluates to over truth values means what the expression means. -/
theorem denote_eq_meaning {env : Valuation} {σ : Assignment} {e : Expr} (hw : e.WellFormed)
    {v : Value Bool} (h : eval (.concrete env σ Primitive.standard) e = .ok v) :
    denote env σ e = v.meaning := by
  have hc := sized_concrete env σ Primitive.standard
  induction e using Expr.induction generalizing v with
  | hole k =>
    rw [eval] at h
    split at h
    · next bits hbits =>
      obtain ⟨value, hvalue, rfl⟩ := Option.map_eq_some_iff.mp hbits
      rw [Except.ok.injEq] at h
      rw [denote, ← h, Assignment.number, hvalue, Value.meaning, Word.numeral,
        Word.length_ofInt, Word.toNat_ofInt]
      rfl
    · cases h
  | node t op s args ih =>
    obtain ⟨values, hvalues, hruns⟩ := runs_of_eval hc hw h
    have hargs := (wellFormed_node.mp hw).2
    have hall := forall₂_of_mem (evalAll_eq_ok.mp hvalues) fun a ha u hu => ih a ha (hargs a ha) hu
    rw [denote, denoteAll_eq_map hall, hruns.denote]
  | choose t w a b s iha ihb =>
    obtain ⟨⟨-, -, hs⟩, hwa, hwb⟩ := wellFormed_choose.mp hw
    obtain ⟨bit, hbit, hv⟩ := eval_choose_eq_ok h
    obtain ⟨value, hvalue, hword⟩ := Option.map_eq_some_iff.mp (selectorBit_eq_ok hc hs hbit)
    have hnumber : σ.number s = value.toInt := by
      rw [Assignment.number, hvalue]
      rfl
    have hbit : σ.number s % 2 = 1 ↔ bit = true := by
      have hnat := congrArg Word.toNat hword
      rw [Word.toNat_ofInt, hs, ← hnumber, show (twoPow 1 : Int) = 2 from rfl] at hnat
      cases bit with
      | true =>
        have hone : (σ.number s % 2).toNat = 1 := hnat
        simp only [iff_true]
        omega
      | false =>
        have hzero : (σ.number s % 2).toNat = 0 := hnat
        simp only [Bool.false_eq_true, iff_false]
        omega
    rw [denote]
    cases hv with
    | ifOne one right =>
      have hone : bit = true := Option.some.inj one
      rw [if_pos (hbit.mpr hone)]
      exact ihb hwb right
    | ifZero zero left =>
      have hzero : bit = false := Option.some.inj zero
      have hne : ¬ σ.number s % 2 = 1 := by simp [hbit, hzero]
      rw [if_neg hne]
      exact iha hwa left
    | mixed free left right => cases free

/-- Interpretation yields the number that an expression means. -/
theorem denote_of_interpret {env : Valuation} {σ : Assignment} {e : Expr} {n : Nat}
    (hw : e.WellFormed) (h : e.interpret env σ Primitive.standard = .ok n) :
    e.denote env σ = .word ⟨e.width, n⟩ := by
  obtain ⟨bits, hbits, hlen, rfl⟩ := exists_bits_of_interpret hw h
  rw [denote_eq_meaning hw hbits, Value.meaning, Word.numeral, hlen]

/-- A variable that is given too large a number, less a hole that is given a negative one. -/
theorem denote_difference :
    let h : Hole := ⟨0, 4, none⟩
    let e := node 2 (.binary .sub) (.word 4) [node 1 (.var "x" 4) (.word 4) [], hole h]
    let σ : Assignment := Std.HashMap.insert ∅ h (.number (-3))
    e.WellFormed ∧ e.interpret [("x", 25)] σ Primitive.standard = .ok 12 ∧
      e.denote [("x", 25)] σ = .word ⟨4, 12⟩ := by
  intro h e σ
  have hw : e.WellFormed := by
    have hsub : Op.Typed (.binary .sub) [.word 4, .word 4] (.word 4) := .binary
    have hvar : Op.Typed (.var "x" 4) [] (.word 4) := .var (by decide)
    simp [e, h, hsub, hvar]
  have hn : e.interpret [("x", 25)] σ Primitive.standard = .ok 12 := by
    let c := Context.concrete [("x", 25)] σ Primitive.standard
    have hx : eval c (node 1 (.var "x" 4) (.word 4) []) = .ok (wordOf 4 25) := rfl
    have hh : eval c (hole h) = .ok (.word (Word.ofInt 4 (-3))) := by
      have hvalue : σ[h]? = some (.number (-3)) := Std.HashMap.getElem?_insert_self
      simp only [eval, c, Context.concrete, Assignment.bits?, hvalue]
      rfl
    have hargs := evalAll_eq_ok.mpr (.cons hx (.cons hh .nil))
    rw [interpret, evaluate_eq_eval, eval, hargs]
    rfl
  exact ⟨hw, hn, denote_of_interpret hw hn⟩

end Expr
end CircuitSketch
