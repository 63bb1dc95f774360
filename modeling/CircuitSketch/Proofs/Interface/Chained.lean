import CircuitSketch.Proofs.Evaluation.Settled
import CircuitSketch.Proofs.Interface.Carry
import Mathlib.Data.Nat.Bitwise

/-!
# What a carry chain yields

A chain of either style adds its data, a second word and its carry in: an adding chain takes the
selections for the second word, and a chain of multiplexers the exclusive or of data and selections.
The sum bits and the carry out of a placed chain are those of one chain over the whole words, so the
number of positions that a block has makes no difference.
-/
namespace CircuitSketch

/-- The carry into position `i` of one chain between two numbers that passes its carry on where the
second number has a one, and takes up the bit of the first one elsewhere. -/
def Word.muxCarry (di s : Nat) (carry : Bool) : Nat → Bool
  | 0 => carry
  | i + 1 => if s.testBit i then muxCarry di s carry i else di.testBit i

namespace Primitive

/-- The carry out of the first `i` positions is the carry into position `i`. -/
theorem muxChain_take (carry : Bool) (pairs : List (Bool × Bool)) {i : Nat}
    (hi : i ≤ pairs.length) :
    (muxChain carry (pairs.take i)).2 = Word.muxCarry (Word.toNat (pairs.map (·.1)))
      (Word.toNat (pairs.map (·.2))) carry i := by
  induction i with
  | zero => rfl
  | succ i ih =>
    have hlt : i < pairs.length := hi
    have hone (c : Bool) : (muxChain c [pairs[i]]).2 = if pairs[i].2 then c else pairs[i].1 := by
      cases h : pairs[i].2 <;> simp [muxChain, BitAlgebra.ite, h]
    rw [List.take_add_one, List.getElem?_eq_getElem hlt, Option.toList_some, muxChain_append, hone,
      ih (by omega), Word.muxCarry, Word.testBit_toNat, Word.testBit_toNat]
    simp [List.getD_eq_getElem?_getD, hlt]

/-- A sum bit is the selection at its position, turned round by the carry into this position. -/
theorem muxChain_getD (carry : Bool) (pairs : List (Bool × Bool)) {i : Nat}
    (hi : i < pairs.length) :
    (muxChain carry pairs).1.getD i false = (pairs[i].2 ^^ Word.muxCarry
      (Word.toNat (pairs.map (·.1))) (Word.toNat (pairs.map (·.2))) carry i) := by
  have hsplit : pairs = pairs.take i ++ pairs[i] :: pairs.drop (i + 1) := by
    rw [List.getElem_cons_drop, List.take_append_drop]
  have hlen : (muxChain carry (pairs.take i)).1.length = i := by
    rw [length_muxChain, List.length_take]
    omega
  have happend := muxChain_append carry (pairs.take i) (pairs[i] :: pairs.drop (i + 1))
  rw [← hsplit] at happend
  rw [happend, List.getD_eq_getElem?_getD, List.getElem?_append_right hlen.le, hlen, Nat.sub_self,
    ← muxChain_take carry pairs hi.le]
  rfl

end Primitive

/-- The two words of one width that pairs are made of. -/
theorem unzip_words {w : Nat} {xs ys : List Bool} (hxs : xs.length = w) (hys : ys.length = w) :
    (xs.zip ys).map (·.1) = xs ∧ (xs.zip ys).map (·.2) = ys ∧ (xs.zip ys).length = w :=
  ⟨List.map_fst_zip (by omega), List.map_snd_zip (by omega), by simp [hxs, hys]⟩

namespace CarryStyle

/-- The bit that a chain adds to a bit of data at a selection. -/
def addend : CarryStyle → Bool → Bool → Bool
  | adder, _, s => s
  | muxXor, d, s => d ^^ s

/-- What a chain adds up. -/
def total (style : CarryStyle) (carry : Bool) (pairs : List (Bool × Bool)) : Nat :=
  Word.toNat (pairs.map (·.1)) + Word.toNat (pairs.map fun q => style.addend q.1 q.2) + carry.toNat

variable (style : CarryStyle) (carry : Bool) (pairs : List (Bool × Bool))

/-- The sum bits and the carry out of a chain hold what it adds up. -/
theorem toNat_chain : Word.toNat (style.chain carry pairs).1 +
    twoPow pairs.length * (style.chain carry pairs).2.toNat = style.total carry pairs := by
  cases style with
  | adder => exact Primitive.toNat_addChain carry pairs
  | muxXor =>
    have h := Primitive.toNat_addChain carry (pairs.map fun q => (q.1, q.1 ^^ q.2))
    rw [← Primitive.muxChain_eq_addChain, List.length_map, List.map_map, List.map_map] at h
    exact h

/-- The sum bits of a chain are the low bits of what it adds up. -/
theorem toNat_chain_fst : Word.toNat (style.chain carry pairs).1 =
    style.total carry pairs % twoPow pairs.length := by
  have hlt := Word.toNat_lt (style.chain carry pairs).1
  rw [length_chain] at hlt
  rw [← toNat_chain, Nat.add_mul_mod_self_left, Nat.mod_eq_of_lt hlt]

/-- There is a carry out of a chain when the sum bits cannot hold what it adds up. -/
theorem chain_snd : (style.chain carry pairs).2 =
    decide (twoPow pairs.length ≤ style.total carry pairs) := by
  have hlt := Word.toNat_lt (style.chain carry pairs).1
  rw [length_chain] at hlt
  rw [← toNat_chain]
  cases (style.chain carry pairs).2 with
  | false => simpa using hlt
  | true => simp

/-- What one chain of a style between two numbers of `w` bits yields, sum and carry out. -/
structure Yields (style : CarryStyle) (w di s : Nat) (carry : Bool) (sum : Nat) (out : Bool) :
    Prop where
  lt : sum < twoPow w
  adds : style = .adder → sum + twoPow w * out.toNat = di + s + carry.toNat
  passes : style = .muxXor → ∀ i < w,
    sum.testBit i = (s.testBit i ^^ Word.muxCarry di s carry i)
  carries : style = .muxXor → out = Word.muxCarry di s carry w
  agrees : style = .muxXor → ∀ b, s = di ^^^ b →
    sum + twoPow w * out.toNat = di + b + carry.toNat

/-- One chain over the bits of two words yields what is said of their numbers. -/
theorem yields_chain {w : Nat} {xs ys : List Bool} (hxs : xs.length = w) (hys : ys.length = w) :
    style.Yields w (Word.toNat xs) (Word.toNat ys) carry
      (Word.toNat (style.chain carry (xs.zip ys)).1) (style.chain carry (xs.zip ys)).2 := by
  obtain ⟨hfst, hsnd, hlen⟩ := unzip_words hxs hys
  have htotal := style.toNat_chain carry (xs.zip ys)
  rw [hlen, total, hfst] at htotal
  constructor
  · simpa [length_chain, hlen] using Word.toNat_lt (style.chain carry (xs.zip ys)).1
  · rintro rfl
    rwa [show (xs.zip ys).map (fun q => adder.addend q.1 q.2) = ys from hsnd] at htotal
  · rintro rfl i hi
    have hbit := Primitive.muxChain_getD carry (xs.zip ys) (i := i) (by omega)
    rw [hfst, hsnd] at hbit
    rw [Word.testBit_toNat, Word.testBit_toNat]
    refine hbit.trans ?_
    simp [List.getD_eq_getElem?_getD, hys, hi]
  · rintro rfl
    have hout := Primitive.muxChain_take carry (xs.zip ys) (i := w) (by omega)
    rw [← hlen, List.take_length, hfst, hsnd, hlen] at hout
    exact hout
  · rintro rfl b hb
    have hxor := Primitive.toNat_map_xor (xs.zip ys)
    rw [hfst, hsnd, hb, ← Nat.xor_assoc, Nat.xor_self, Nat.zero_xor] at hxor
    rwa [show Word.toNat ((xs.zip ys).map fun q => muxXor.addend q.1 q.2) = b from hxor] at htotal

/-- The bit by which to select so that a chain adds the second of two words to the first. -/
def sumBit : CarryStyle → Bool → Bool → Bool
  | adder, _, v => v
  | muxXor, u, v => u ^^ v

/-- The bit of data with which a chain carries where the first of two words is the lesser one. -/
def lessData : CarryStyle → Bool → Bool → Bool
  | adder, u, _ => !u
  | muxXor, _, v => v

/-- The bit by which to select so that a chain carries where the first of two words is the lesser
one. -/
def lessBit : CarryStyle → Bool → Bool → Bool
  | adder, _, v => v
  | muxXor, u, v => !(u ^^ v)

theorem addend_sumBit (u v : Bool) : style.addend u (style.sumBit u v) = v := by
  cases style <;> cases u <;> cases v <;> rfl

theorem addend_not_sumBit (u v : Bool) : style.addend u (!style.sumBit u v) = !v := by
  cases style <;> cases u <;> cases v <;> rfl

/-- What a chain between functions of the positions of two words adds up. -/
theorem total_map (f g : Bool → Bool → Bool) :
    style.total carry (pairs.map fun q => (f q.1 q.2, g q.1 q.2)) =
      Word.toNat (pairs.map fun q => f q.1 q.2) +
        Word.toNat (pairs.map fun q => style.addend (f q.1 q.2) (g q.1 q.2)) + carry.toNat := by
  simp only [total, List.map_map, Function.comp_def]

theorem toNat_chain_sum :
    Word.toNat (style.chain false (pairs.map fun q => (q.1, style.sumBit q.1 q.2))).1 =
      (Word.toNat (pairs.map (·.1)) + Word.toNat (pairs.map (·.2))) % twoPow pairs.length := by
  rw [toNat_chain_fst, total_map style false pairs (fun u _ => u), List.length_map]
  simp only [addend_sumBit, Bool.toNat_false, Nat.add_zero]

/-- To subtract is to add the complement and one. -/
theorem toNat_chain_difference :
    Word.toNat (style.chain true (pairs.map fun q => (q.1, !style.sumBit q.1 q.2))).1 =
      (((Word.toNat (pairs.map (·.1)) : Int) - Word.toNat (pairs.map (·.2))) %
        twoPow pairs.length).toNat := by
  have hnot := Word.toNat_map_not (·.2) pairs
  rw [toNat_chain_fst, total_map style true pairs (fun u _ => u) (fun u v => !style.sumBit u v),
    List.length_map]
  simp only [addend_not_sumBit, Bool.toNat_true]
  have htotal : ((Word.toNat (pairs.map (·.1)) + Word.toNat (pairs.map fun q => !q.2) + 1 : Nat) :
      Int) = Word.toNat (pairs.map (·.1)) - Word.toNat (pairs.map (·.2)) + twoPow pairs.length := by
    omega
  rw [← Int.add_emod_right, ← htotal, ← Int.natCast_mod, Int.toNat_natCast]

/-- Two words are equal where every position propagates the carry. -/
theorem chain_equal :
    (style.chain true (pairs.map fun q => (false, !(q.1 ^^ q.2)))).2 =
      decide (Word.toNat (pairs.map (·.1)) = Word.toNat (pairs.map (·.2))) := by
  have hnot := Word.toNat_map_not (fun q => q.1 ^^ q.2) pairs
  have haddend (b : Bool) : style.addend false b = b := by cases style <;> cases b <;> rfl
  rw [Primitive.toNat_map_xor] at hnot
  rw [chain_snd, total_map style true pairs (fun _ _ => false) (fun u v => !(u ^^ v)),
    List.length_map, decide_eq_decide, ← Nat.xor_eq_zero_iff]
  simp only [haddend, List.map_const', Word.toNat_replicate_false, Bool.toNat_true]
  omega

/-- The complement of the lesser word is carried out of the sum with the greater one. -/
theorem chain_less :
    (style.chain false (pairs.map fun q => (style.lessData q.1 q.2, style.lessBit q.1 q.2))).2 =
      decide (Word.toNat (pairs.map (·.1)) < Word.toNat (pairs.map (·.2))) := by
  have hnot := Word.toNat_map_not (·.1) pairs
  rw [chain_snd, total_map, List.length_map, decide_eq_decide]
  cases style with
  | adder =>
    simp only [lessData, lessBit, addend, Bool.toNat_false]
    omega
  | muxXor =>
    have haddend (u v : Bool) : (v ^^ !(u ^^ v)) = !u := by cases u <;> cases v <;> rfl
    simp only [lessData, lessBit, addend, haddend, Bool.toNat_false]
    omega

end CarryStyle

namespace Platform

open CircuitSketch.Expr Build

variable {p : Platform} {unit : CarryUnit} {ci di s : Expr} {ports : List (String × Operand)}
  {width : Datum} {w : Nat}

/-- The ports of a carry chain may be named in any order. -/
theorem wire_carry_of_perm {r : Request}
    (hports : ports.Perm [("CI", .expr ci), ("DI", .expr di), ("S", .expr s)])
    (hci : ci.shape = .word 1) (hdi : di.shape = .word w) (hs : s.shape = .word w) :
    r.wire ports [("CI", 1), ("DI", w), ("S", w)] = .ok [ci, di, s] :=
  Request.wire_of_perm hports (by simp) (wire_carry.mpr ⟨rfl, hci, hdi, hs⟩)

/-- A request for a carry chain between words of its width is met. -/
theorem exists_construct_carry (hcarry : p.carry = some unit) (plain : unit.chunk.pointed = false)
    (hwidth : width.positive? = some w)
    (hports : ports.Perm [("CI", .expr ci), ("DI", .expr di), ("S", .expr s)])
    (hci : ci.shape = .word 1) (hdi : di.shape = .word w) (hs : s.shape = .word w)
    (given : Option CarryProgram) (fits : ∀ g ∈ given, g.width = w) (next : Nat) : ∃ sum co last,
      p.construct (.carry width) ports (given.map fun g => .program (.carry g)) next =
          .ok (([("O", sum), ("CO", co)], .carry ⟨w⟩), last) ∧
        ChainOutput unit.style ci di s w sum co := by
  obtain ⟨⟨sums, co⟩, mid, hblocks⟩ := succeeds_carryBlocks unit di s w 0 ci next
  obtain ⟨sum, last, hjoin⟩ := succeeds_concatBits (ε := Refusal) sums mid
  have hpos := (Datum.positive?_eq_some hwidth).2
  have houtput := (chainOutput_of_blocks hpos hci hdi hs hblocks hjoin).2
  refine ⟨sum, co, last, ?_, houtput⟩
  have hbuilt : ∀ c : Option CarryProgram, (∀ g ∈ c, g.width = w) →
      buildCarry unit (.carry width) ports c next = .ok ((sum, co, ⟨w⟩), last) := fun c hc =>
    buildCarry_of_blocks (positive_carry.mpr hwidth) (wire_carry_of_perm hports hci hdi hs) hc
      plain hblocks hjoin
  cases given with
  | none =>
    simp only [construct, Request.carry, hcarry, Option.map_none]
    exact bind_of_ok (f := fun r => pure ([("O", r.1), ("CO", r.2.1)], Program.carry r.2.2))
      (hbuilt none (by simp))
  | some g =>
    simp only [construct, Request.carry, hcarry, Option.map_some]
    exact bind_of_ok (f := fun r => pure ([("O", r.1), ("CO", r.2.1)], Program.carry r.2.2))
      (hbuilt (some g) fits)

/-- A carry chain of any width is built from blocks of any size that can be counted up to, and its
sum and its carry out are what one chain between the words yields. -/
theorem construct_carry_yields (hcarry : p.carry = some unit) (plain : unit.chunk.pointed = false)
    (hwidth : width.positive? = some w)
    (hports : ports.Perm [("CI", .expr ci), ("DI", .expr di), ("S", .expr s)])
    (hci : ci.WellFormed ∧ ci.shape = .word 1) (hdi : di.WellFormed ∧ di.shape = .word w)
    (hs : s.WellFormed ∧ s.shape = .word w) (given : Option CarryProgram)
    (fits : ∀ g ∈ given, g.width = w) (next : Nat) : ∃ sum co last,
      p.construct (.carry width) ports (given.map fun g => .program (.carry g)) next =
          .ok (([("O", sum), ("CO", co)], .carry ⟨w⟩), last) ∧
        ∀ (env : Valuation) (σ : Assignment) (x y : Nat) (c : Bool),
          di.interpret env σ Primitive.standard = .ok x →
            s.interpret env σ Primitive.standard = .ok y →
              ci.interpret env σ Primitive.standard = .ok c.toNat →
                ∃ (o : Nat) (k : Bool), sum.interpret env σ Primitive.standard = .ok o ∧
                  co.interpret env σ Primitive.standard = .ok k.toNat ∧
                    unit.style.Yields w x y c o k := by
  obtain ⟨sum, co, last, hbuilt, houtput⟩ :=
    exists_construct_carry hcarry plain hwidth hports hci.2 hdi.2 hs.2 given fits next
  refine ⟨sum, co, last, hbuilt, fun env σ x y c hx hy hc => ?_⟩
  obtain ⟨xs, hxs, hlx, rfl⟩ := exists_bits_of_interpret hdi.1 hx
  obtain ⟨ys, hys, hly, rfl⟩ := exists_bits_of_interpret hs.1 hy
  obtain ⟨cs, hcs, hlc, hbit⟩ := exists_bits_of_interpret hci.1 hc
  rw [width_of_shape hdi.2] at hlx
  rw [width_of_shape hs.2] at hly
  rw [width_of_shape hci.2] at hlc
  obtain rfl : cs = [c] := Word.eq_of_toNat_eq hlc (by simpa using hbit.symm)
  obtain ⟨hsum, hout⟩ := houtput.eval (.concrete env σ Primitive.standard) c xs ys rfl hcs hxs hys
    hlx hly
  refine ⟨_, _, interpret_of_eval (isWord_of_shape houtput.shape_sum) hsum, ?_,
    unit.style.yields_chain c hlx hly⟩
  rw [interpret_of_eval (isWord_of_shape houtput.shape_out) hout]
  simp

/-- Three positions in blocks of two: five and six and one make four with a carry, in an adding
chain as in one that selects by the difference of five and six. -/
theorem construct_carry_yields_three :
    (∃ sum co last, latticeEcp5.construct (.carry (.int 3))
        [("S", .expr (input 2 "s" 3)), ("CI", .expr (input 0 "c" 1)),
          ("DI", .expr (input 1 "d" 3))] none 3 =
          .ok (([("O", sum), ("CO", co)], .carry ⟨3⟩), last) ∧
      sum.interpret [("c", 1), ("d", 5), ("s", 6)] ∅ Primitive.standard = .ok 4 ∧
      co.interpret [("c", 1), ("d", 5), ("s", 6)] ∅ Primitive.standard = .ok 1) ∧
    ∃ sum co last,
      ({ latticeEcp5 with carry := some { style := .muxXor, chunk := .plain 2 } } :
        Platform).construct (.carry (.int 3))
        [("S", .expr (input 2 "s" 3)), ("CI", .expr (input 0 "c" 1)),
          ("DI", .expr (input 1 "d" 3))] (some (.program (.carry ⟨3⟩))) 3 =
          .ok (([("O", sum), ("CO", co)], .carry ⟨3⟩), last) ∧
      sum.interpret [("c", 1), ("d", 5), ("s", 3)] ∅ Primitive.standard = .ok 4 ∧
      co.interpret [("c", 1), ("d", 5), ("s", 3)] ∅ Primitive.standard = .ok 1 := by
  have hwidth : (Datum.int 3).positive? = some 3 := rfl
  have hports : [("S", Operand.expr (input 2 "s" 3)), ("CI", .expr (input 0 "c" 1)),
      ("DI", .expr (input 1 "d" 3))].Perm [("CI", .expr (input 0 "c" 1)),
        ("DI", .expr (input 1 "d" 3)), ("S", .expr (input 2 "s" 3))] :=
    (List.Perm.swap _ _ _).trans (.cons _ (.swap _ _ _))
  have hci : (input 0 "c" 1).WellFormed ∧ (input 0 "c" 1).shape = .word 1 :=
    ⟨wellFormed_input (by decide), rfl⟩
  have hdi : (input 1 "d" 3).WellFormed ∧ (input 1 "d" 3).shape = .word 3 :=
    ⟨wellFormed_input (by decide), rfl⟩
  have hs : (input 2 "s" 3).WellFormed ∧ (input 2 "s" 3).shape = .word 3 :=
    ⟨wellFormed_input (by decide), rfl⟩
  -- a sum of twelve that fits in three bits and a carry
  have hsplit : ∀ (o : Nat) (k : Bool), o < twoPow 3 → o + twoPow 3 * k.toNat = 12 →
      o = 4 ∧ k = true := by
    intro o k hlt hsum
    change o < 8 at hlt
    change o + 8 * k.toNat = 12 at hsum
    cases k with
    | false =>
      simp only [Bool.toNat_false] at hsum
      omega
    | true =>
      simp only [Bool.toNat_true] at hsum
      exact ⟨by omega, rfl⟩
  constructor
  · obtain ⟨sum, co, last, hbuilt, hyields⟩ := construct_carry_yields (p := latticeEcp5) rfl
      rfl hwidth hports hci hdi hs none (by simp) 3
    obtain ⟨o, k, ho, hk, h⟩ := hyields [("c", 1), ("d", 5), ("s", 6)] ∅ 5 6 true
      (interpret_input rfl (by decide)) (interpret_input rfl (by decide))
      (interpret_input rfl (by decide))
    obtain ⟨rfl, rfl⟩ := hsplit o k h.lt (h.adds rfl)
    exact ⟨sum, co, last, hbuilt, ho, hk⟩
  · obtain ⟨sum, co, last, hbuilt, hyields⟩ := construct_carry_yields
      (p := { latticeEcp5 with carry := some { style := .muxXor, chunk := .plain 2 } }) rfl rfl
      hwidth hports hci hdi hs (some ⟨3⟩) (by simp) 3
    obtain ⟨o, k, ho, hk, h⟩ := hyields [("c", 1), ("d", 5), ("s", 3)] ∅ 5 3 true
      (interpret_input rfl (by decide)) (interpret_input rfl (by decide))
      (interpret_input rfl (by decide))
    obtain ⟨rfl, rfl⟩ := hsplit o k h.lt (h.agrees rfl 6 rfl)
    exact ⟨sum, co, last, hbuilt, ho, hk⟩

end Platform
end CircuitSketch
