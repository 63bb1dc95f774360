import CircuitSketch.Bits.Word
import CircuitSketch.Expr.Basic

/-!
# Operators on numbers

What the operators of expressions yield. A word takes part as the number that it stands for, and a
result is cut to the width of the operands.
-/
namespace CircuitSketch

/-- The number that an operator yields from two numbers of `width` bits. A shift by the width or
more moves every bit out. -/
def BinaryOp.apply (op : BinaryOp) (width a b : Nat) : Nat :=
  match op with
  | and => a &&& b
  | or => a ||| b
  | xor => a ^^^ b
  | add => (a + b) % twoPow width
  | sub => (a + (twoPow width - b)) % twoPow width
  | mul => a * b % twoPow width
  | shl => if b < width then (a <<< b) % twoPow width else 0
  | lshr => if b < width then a >>> b else 0
  | ashr => ((Word.signed width a >>> min b width) % twoPow width).toNat
  | eq => (a == b).toNat
  | ne => (a != b).toNat
  | ult => (decide (a < b)).toNat
  | slt => (decide (Word.signed width a < Word.signed width b)).toNat

/-- The number that an operator yields from a number of `width` bits. -/
def UnaryOp.apply (op : UnaryOp) (width a : Nat) : Nat :=
  match op with
  | not => twoPow width - 1 - a
  | neg => (twoPow width - a) % twoPow width

end CircuitSketch
