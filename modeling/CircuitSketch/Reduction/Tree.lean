import CircuitSketch.Reduction.Row

/-!
# Reduction to one bit

Rows of bits are packed into a row of lookup tables, the outputs of that row into the next, and so
on until one bit is left. Each level divides the length by the size of the largest lookup table, so
the number of levels is known beforehand.
-/
namespace CircuitSketch.Reduction

/-- The number of levels that reduce a single row of `length` bits with tables of `size` inputs.
With one input a row cannot be shortened, and the one level asked for is turned down. -/
def furtherLevels (size length : Nat) : Nat :=
  if length ≤ 1 then 0
  else if size < 2 then 1
  else 1 + furtherLevels size (Row.windowCount length size)
termination_by length
decreasing_by exact Row.windowCount_lt (by omega) (by omega)

/-- Packs a row again and again, at most `levels` times, until one bit is left. -/
def fold (p : Platform) (share : Bool) : (levels : Nat) → List Expr → List RowProgram →
    Build Refusal (Expr × List RowProgram)
  | _, [bit], _ => pure (bit, [])
  | 0, _, _ => Build.fail (.arity .noRows)
  | levels + 1, row, given => do
    let (next, program) ← Row.packBits p [row] given.head? share false
    let (bit, programs) ← fold p share levels next given.tail
    pure (bit, program :: programs)

/-- Reduces rows of bits to one bit: the bit, and the program of each level. -/
def reduce (p : Platform) (rows : List (List Operand)) (given : Option ReductionProgram)
    (share : Bool) : Build Refusal (Expr × ReductionProgram) := do
  let levels := (given.map ReductionProgram.levels).getD []
  let (row, program) ← Row.pack p rows levels.head? share false
  let (bit, programs) ← fold p share (furtherLevels p.maxLut row.length) row levels.tail
  pure (bit, ⟨program :: programs⟩)

end CircuitSketch.Reduction
