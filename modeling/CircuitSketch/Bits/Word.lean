import CircuitSketch.Bits.Power

/-!
# Words

A word is a list of bits, least significant first. `Word.toNat` reads it as a number and
`Word.ofInt` writes a number modulo `twoPow width`.
-/
namespace CircuitSketch

namespace Word

/-- The number that bits stand for, least significant bit first. -/
def toNat : List Bool → Nat
  | [] => 0
  | b :: rest => b.toNat + 2 * toNat rest

/-- The lowest bits of a number. -/
def ofNat (width n : Nat) : List Bool := (List.range width).map n.testBit

/-- The lowest bits of an integer, negative ones in two's complement. -/
def ofInt (width : Nat) (n : Int) : List Bool := ofNat width (n % twoPow width).toNat

@[simp] theorem length_ofNat (width n : Nat) : (ofNat width n).length = width := by simp [ofNat]

@[simp] theorem length_ofInt (width : Nat) (n : Int) : (ofInt width n).length = width := by
  simp [ofInt]

/-- A number of `width` bits read as a signed one. -/
def signed (width n : Nat) : Int :=
  if n.testBit (width - 1) then (n : Int) - twoPow width else n

end Word

end CircuitSketch
