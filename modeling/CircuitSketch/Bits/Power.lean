/-!
# Powers of two

The number of words of a width, the number of entries of a table with some inputs, and the distance
that a stage of a shift moves by.
-/
namespace CircuitSketch

/-- Two to a power. -/
def twoPow (n : Nat) : Nat := Nat.pow 2 n

@[simp] theorem twoPow_zero : twoPow 0 = 1 := rfl

theorem twoPow_succ (n : Nat) : twoPow (n + 1) = twoPow n * 2 := rfl

theorem twoPow_pos (n : Nat) : 0 < twoPow n := by
  induction n with
  | zero => exact Nat.one_pos
  | succ n ih => rw [twoPow_succ]; omega

end CircuitSketch
