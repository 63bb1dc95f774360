import CircuitSketch.Bits.Word
import Mathlib.Algebra.Order.Ring.Int

/-!
# Words as numbers

`Word.toNat` reads a word as a number below `twoPow` of its length, and `Word.ofInt` writes a number
modulo `twoPow` of the width. Cutting and joining words are division, remainder and addition.
-/
namespace CircuitSketch

theorem twoPow_eq (n : Nat) : twoPow n = 2 ^ n := rfl

theorem twoPow_add (m n : Nat) : twoPow (m + n) = twoPow m * twoPow n := Nat.pow_add 2 m n

namespace Word

@[simp] theorem toNat_nil : toNat [] = 0 := rfl

@[simp] theorem toNat_cons (b : Bool) (bits : List Bool) :
    toNat (b :: bits) = b.toNat + 2 * toNat bits := rfl

theorem toNat_lt (bits : List Bool) : toNat bits < twoPow bits.length := by
  induction bits with
  | nil => exact Nat.one_pos
  | cons b bits ih =>
    have hb := Bool.toNat_le b
    rw [toNat_cons, List.length_cons, twoPow_succ]
    omega

theorem toNat_append (low high : List Bool) :
    toNat (low ++ high) = toNat low + twoPow low.length * toNat high := by
  induction low with
  | nil => simp
  | cons b low ih =>
    rw [List.cons_append, toNat_cons, toNat_cons, ih, List.length_cons, twoPow_succ]
    rw [Nat.mul_comm (twoPow low.length) 2, Nat.mul_assoc]
    omega

/-- A bit of a number is the bit of the word at that place, and zero past the end. -/
theorem testBit_toNat (bits : List Bool) (i : Nat) :
    (toNat bits).testBit i = bits.getD i false := by
  induction bits generalizing i with
  | nil => simp
  | cons b bits ih =>
    have hb : b.toNat < 2 := Bool.toNat_lt b
    cases i with
    | zero =>
      have hmod : (b.toNat + 2 * toNat bits) % 2 = b.toNat := by omega
      rw [toNat_cons, Nat.testBit_zero, hmod, List.getD_cons_zero]
      cases b <;> rfl
    | succ i =>
      have hdiv : (b.toNat + 2 * toNat bits) / 2 = toNat bits := by omega
      rw [toNat_cons, Nat.testBit_succ, hdiv, ih, List.getD_cons_succ]

/-- Words of one length that stand for the same number are the same. -/
theorem eq_of_toNat_eq {a b : List Bool} (hlen : a.length = b.length) (h : toNat a = toNat b) :
    a = b := by
  apply List.ext_getElem hlen
  intro i ha hb
  have hbit : a.getD i false = b.getD i false := by rw [← testBit_toNat, ← testBit_toNat, h]
  simpa [List.getD_eq_getElem?_getD, ha, hb] using hbit

theorem toNat_ofNat (w n : Nat) : toNat (ofNat w n) = n % twoPow w := by
  apply Nat.eq_of_testBit_eq
  intro i
  rw [testBit_toNat, twoPow_eq, Nat.testBit_mod_two_pow, ofNat, List.getD_eq_getElem?_getD]
  by_cases h : i < w
  · simp [h]
  · simp [h]

theorem toNat_ofInt (w : Nat) (n : Int) : toNat (ofInt w n) = (n % twoPow w).toNat := by
  have hpos := twoPow_pos w
  have hlt := Int.emod_lt_of_pos n (b := twoPow w) (by omega)
  rw [ofInt, toNat_ofNat]
  exact Nat.mod_eq_of_lt (by omega)

theorem toNat_ofInt_natCast (w n : Nat) : toNat (ofInt w n) = n % twoPow w := by
  rw [toNat_ofInt]
  exact Int.toNat_natCast _

theorem toNat_take (bits : List Bool) (n : Nat) : toNat (bits.take n) = toNat bits % twoPow n := by
  apply Nat.eq_of_testBit_eq
  intro i
  rw [testBit_toNat, twoPow_eq, Nat.testBit_mod_two_pow, testBit_toNat,
    List.getD_eq_getElem?_getD, List.getD_eq_getElem?_getD, List.getElem?_take]
  by_cases h : i < n
  · simp [h]
  · simp [h]

theorem toNat_drop (bits : List Bool) (n : Nat) : toNat (bits.drop n) = toNat bits / twoPow n := by
  apply Nat.eq_of_testBit_eq
  intro i
  rw [testBit_toNat, twoPow_eq, Nat.testBit_div_two_pow, testBit_toNat,
    List.getD_eq_getElem?_getD, List.getD_eq_getElem?_getD, List.getElem?_drop, Nat.add_comm]

@[simp] theorem toNat_replicate_false (n : Nat) : toNat (List.replicate n false) = 0 := by
  induction n with
  | zero => rfl
  | succ n ih => simp [List.replicate_succ, ih]

theorem toNat_replicate_true (n : Nat) : toNat (List.replicate n true) = twoPow n - 1 := by
  induction n with
  | zero => rfl
  | succ n ih =>
    have hpos := twoPow_pos n
    rw [List.replicate_succ, toNat_cons, ih, twoPow_succ, Bool.toNat_true]
    omega

/-- A word and its complement make up the largest number of their width. -/
theorem toNat_map_not {α : Type} (f : α → Bool) (xs : List α) :
    toNat (xs.map fun x => !f x) + toNat (xs.map f) + 1 = twoPow xs.length := by
  induction xs with
  | nil => rfl
  | cons x xs ih =>
    have hbit : (!f x).toNat + (f x).toNat = 1 := by cases f x <;> rfl
    rw [List.map_cons, List.map_cons, toNat_cons, toNat_cons, List.length_cons, twoPow_succ]
    omega

end Word
end CircuitSketch
