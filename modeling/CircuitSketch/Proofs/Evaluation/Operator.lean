import CircuitSketch.Evaluation.Operator
import CircuitSketch.Proofs.Bits.Word

/-!
# Operators as bit-vector operations

What the operators of expressions yield, on numbers of one width, is what the bit vectors of that
width yield.
-/
namespace CircuitSketch

/-- The number that the bit-vector operation of an operator yields. -/
def BinaryOp.denote (op : BinaryOp) (w a b : Nat) : Nat :=
  let x := BitVec.ofNat w a
  let y := BitVec.ofNat w b
  match op with
  | and => (x &&& y).toNat
  | or => (x ||| y).toNat
  | xor => (x ^^^ y).toNat
  | add => (x + y).toNat
  | sub => (x - y).toNat
  | mul => (x * y).toNat
  | shl => (x <<< b).toNat
  | lshr => (x >>> b).toNat
  | ashr => (x.sshiftRight b).toNat
  | eq => (x == y).toNat
  | ne => (x != y).toNat
  | ult => (x.ult y).toNat
  | slt => (x.slt y).toNat

/-- The number that the bit-vector operation of an operator on one word yields. -/
def UnaryOp.denote (op : UnaryOp) (w a : Nat) : Nat :=
  let x := BitVec.ofNat w a
  match op with
  | not => (~~~x).toNat
  | neg => (-x).toNat

theorem Word.signed_eq_toInt {w a : Nat} (ha : a < twoPow w) :
    Word.signed w a = (BitVec.ofNat w a).toInt := by
  rw [twoPow_eq] at ha
  have hx : (BitVec.ofNat w a).toNat = a := by simp [Nat.mod_eq_of_lt ha]
  have hmsb : (BitVec.ofNat w a).msb = a.testBit (w - 1) := by
    rw [BitVec.msb_eq_getLsbD_last, BitVec.getLsbD_ofNat]
    by_cases hw : w = 0
    · subst hw
      have h0 : a = 0 := by omega
      simp [h0]
    · have hlt : w - 1 < w := by omega
      simp [hlt]
  rw [BitVec.toInt_eq_msb_cond, hmsb, hx]
  rfl

/-- A signed number shifted by its width or more keeps nothing but its sign. -/
theorem shiftRight_eq_of_le {w b : Nat} {x : Int} (low : -(2 ^ w : Nat) ≤ x)
    (high : x < (2 ^ w : Nat)) (h : w ≤ b) : x >>> b = if x < 0 then -1 else 0 := by
  have hle : 2 ^ w ≤ 2 ^ b := Nat.pow_le_pow_right (by omega) h
  have hpos : (0 : Int) < (2 ^ b : Nat) := by
    have := Nat.two_pow_pos b
    omega
  rw [Int.shiftRight_eq_div_pow]
  by_cases hx : x < 0
  · have hge : -1 ≤ x / (2 ^ b : Nat) := Int.le_ediv_of_mul_le hpos (by omega)
    have hlt : x / (2 ^ b : Nat) < 0 := Int.ediv_lt_of_lt_mul hpos (by omega)
    rw [if_pos hx]
    omega
  · rw [if_neg hx]
    exact Int.ediv_eq_zero_of_lt (by omega) (by omega)

theorem shiftRight_min {w b : Nat} {x : Int} (low : -(2 ^ w : Nat) ≤ x)
    (high : x < (2 ^ w : Nat)) : x >>> min b w = x >>> b := by
  by_cases h : b ≤ w
  · rw [Nat.min_eq_left h]
  · rw [Nat.min_eq_right (by omega), shiftRight_eq_of_le low high (Nat.le_refl w),
      shiftRight_eq_of_le low high (by omega)]

theorem BinaryOp.apply_eq_denote (op : BinaryOp) {w a b : Nat} (ha : a < twoPow w)
    (hb : b < twoPow w) : op.apply w a b = op.denote w a b := by
  have hsa := Word.signed_eq_toInt ha
  have hsb := Word.signed_eq_toInt hb
  rw [twoPow_eq] at ha hb
  have hx : (BitVec.ofNat w a).toNat = a := by simp [Nat.mod_eq_of_lt ha]
  have hy : (BitVec.ofNat w b).toNat = b := by simp [Nat.mod_eq_of_lt hb]
  have heq : (BitVec.ofNat w a == BitVec.ofNat w b) = (a == b) := by
    rw [Bool.eq_iff_iff, beq_iff_eq, beq_iff_eq, ← BitVec.toNat_inj, hx, hy]
  cases op with
  | and => simp [apply, denote, Nat.mod_eq_of_lt ha, Nat.mod_eq_of_lt hb]
  | or => simp [apply, denote, Nat.mod_eq_of_lt ha, Nat.mod_eq_of_lt hb]
  | xor => simp [apply, denote, Nat.mod_eq_of_lt ha, Nat.mod_eq_of_lt hb]
  | add => simp [apply, denote, twoPow_eq]
  | sub =>
    simp only [apply, denote, BitVec.toNat_sub, hx, hy, twoPow_eq]
    rw [Nat.add_comm]
  | mul => simp [apply, denote, twoPow_eq]
  | shl =>
    simp only [apply, denote, BitVec.toNat_shiftLeft, hx, twoPow_eq]
    by_cases h : b < w
    · rw [if_pos h]
    · have hdvd : 2 ^ w ∣ a <<< b := by
        rw [Nat.shiftLeft_eq]
        exact Nat.dvd_trans (Nat.pow_dvd_pow 2 (by omega)) (Nat.dvd_mul_left _ _)
      rw [if_neg h, Nat.mod_eq_zero_of_dvd hdvd]
  | lshr =>
    simp only [apply, denote, BitVec.toNat_ushiftRight, hx]
    by_cases h : b < w
    · rw [if_pos h]
    · have hle : 2 ^ w ≤ 2 ^ b := Nat.pow_le_pow_right (by omega) (by omega)
      rw [if_neg h, Nat.shiftRight_eq_div_pow, Nat.div_eq_of_lt (by omega)]
  | ashr =>
    have hlow := BitVec.le_two_mul_toInt (x := BitVec.ofNat w a)
    have hhigh := BitVec.two_mul_toInt_lt (x := BitVec.ofNat w a)
    have hcast : ((2 ^ w : Nat) : Int) = 2 ^ w := by simp
    have hshift := shiftRight_min (b := b) (w := w) (x := (BitVec.ofNat w a).toInt)
      (by omega) (by omega)
    simp only [apply, denote, BitVec.sshiftRight, BitVec.toNat_ofInt, hsa, hshift, twoPow_eq]
  | eq => simp only [apply, denote, heq]
  | ne => simp only [apply, denote, bne, heq]
  | ult => simp [apply, denote, BitVec.ult, Nat.mod_eq_of_lt ha, Nat.mod_eq_of_lt hb]
  | slt => simp only [apply, denote, BitVec.slt, hsa, hsb]

theorem UnaryOp.apply_eq_denote (op : UnaryOp) {w a : Nat} (ha : a < twoPow w) :
    op.apply w a = op.denote w a := by
  rw [twoPow_eq] at ha
  cases op with
  | not => simp [apply, denote, twoPow_eq, Nat.mod_eq_of_lt ha]
  | neg => simp [apply, denote, twoPow_eq, Nat.mod_eq_of_lt ha]

theorem BinaryOp.denote_lt (op : BinaryOp) (w a b : Nat) :
    op.denote w a b < twoPow (if op.isComparison then 1 else w) := by
  cases op with
  | eq | ne | ult | slt => exact Bool.toNat_lt _
  | _ => exact BitVec.isLt _

theorem UnaryOp.denote_lt (op : UnaryOp) (w a : Nat) : op.denote w a < twoPow w := by
  cases op <;> exact BitVec.isLt _

end CircuitSketch
