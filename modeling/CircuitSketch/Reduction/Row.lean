import CircuitSketch.Interface.Construct

/-!
# Rows of lookup tables

Rows of bits of one length are cut into windows of one size. Each window, across all rows, feeds one
lookup table, and the size of a window is as large as the largest lookup table allows. A last window
that the rows do not fill is filled up with one hole, the pad.
-/
namespace CircuitSketch

namespace Platform

/-- The bits taken from each of `rows` rows for one lookup table, rounded down to an even number on
demand. -/
def window (p : Platform) (rows : Int) (even : Bool) : Except Refusal Count :=
  let size := Int.fdiv p.maxLut rows
  let size := if even ∧ size > 1 ∧ size % 2 ≠ 0 then size - 1 else size
  if size < 1 then .error (.unsupported (.tooManyRows p.name p.largest rows))
  else .ok ⟨size.toNat, p.largest.pointed⟩

end Platform

namespace Row

/-- The number of windows of a size that cover a length. -/
def windowCount (length window : Nat) : Nat := (length + window - 1) / window

theorem windowCount_lt {length window : Nat} (hl : 1 < length) (hw : 1 < window) :
    windowCount length window < length := by
  obtain ⟨l, rfl⟩ : ∃ l, length = l + 2 := ⟨length - 2, by omega⟩
  obtain ⟨w, rfl⟩ : ∃ w, window = w + 2 := ⟨window - 2, by omega⟩
  rw [windowCount, Nat.div_lt_iff_lt_mul (by omega), Nat.add_mul, Nat.mul_add, Nat.mul_add]
  omega

/-- One bit of a row as an expression. -/
def bitOf : Operand → Except Refusal Expr
  | .expr e => if e.shape = .word 1 then .ok e else .error (.input .rowBits)
  | _ => .error (.input .rowBits)

/-- Rows of bits: at least one row, all of one length above zero, and every element a single bit. -/
def check (rows : List (List Operand)) : Except Refusal (List (List Expr)) :=
  match rows with
  | [] => .error (.arity .noRows)
  | first :: rest =>
    if first.length = 0 ∨ rest.any fun row => row.length ≠ first.length then
      .error (.input (.rowLengths (rows.map List.length)))
    else rows.mapM fun row => row.mapM bitOf

/-- The bits of one window across all rows, filled up with the pad. -/
def windowBits (rows : List (List Expr)) (window index : Nat) (pad : List Expr) : List Expr :=
  rows.flatMap fun row =>
    let bits := (row.drop (index * window)).take window
    bits ++ (List.replicate (window - bits.length) pad).flatten

/-- The pad of a row of lookup tables: needed only where the last window is not full. -/
def padFor (length window : Nat) (given : Option Hole) : Build Refusal (Option Hole) :=
  match given with
  | some h => pure (some h)
  | none =>
    if length % window = 0 then pure none
    else do
      let h ← Build.newHole 1 none
      pure (some h)

/-- One lookup table for every window, all with the same table. -/
def placeShared (p : Platform) (given : Option LutProgram) :
    List (List Expr) → Build Refusal (List Expr × Option LutProgram)
  | [] => pure ([], given)
  | bits :: rest => do
    let (out, program) ← p.lut bits given
    let (outs, last) ← placeShared p (some program) rest
    pure (out :: outs, last)

/-- One lookup table for every window, each with a table of its own. -/
def placeSeparate (p : Platform) :
    List LutProgram → List (List Expr) → Build Refusal (List Expr × List LutProgram)
  | _, [] => pure ([], [])
  | given, bits :: rest => do
    let (out, program) ← p.lut bits given.head?
    let (outs, programs) ← placeSeparate p given.tail rest
    pure (out :: outs, program :: programs)

/-- Packs checked rows: one bit for every window, and the program. -/
def packBits (p : Platform) (rows : List (List Expr)) (given : Option RowProgram)
    (share even : Bool) : Build Refusal (List Expr × RowProgram) := do
  let length := (rows.headD []).length
  let window ← p.window rows.length even
  if rows.length = 1 ∧ window.value < 2 ∧ length > 1 then
    Build.fail (.unsupported (.windowTooSmall p.name window))
  else
    let count := windowCount length window.value
    let luts := (given.map RowProgram.luts).getD []
    if !luts.isEmpty && !share && luts.length ≠ count then
      Build.fail (.mismatch (.windows luts.length ⟨count, window.pointed⟩))
    else
      window.checkPlain
      let pad ← padFor length window.value (given.bind RowProgram.pad)
      let padBits := (pad.map Expr.hole).toList
      let windows := (List.range count).map fun k => windowBits rows window.value k padBits
      if share then
        let (outs, program) ← placeShared p luts.head? windows
        pure (outs, ⟨program.toList, pad⟩)
      else
        let (outs, programs) ← placeSeparate p luts windows
        pure (outs, ⟨programs, pad⟩)

/-- Packs rows of bits into one row of lookup tables: one bit for every window, and the program.
With `share`, all of them have the same table. -/
def pack (p : Platform) (rows : List (List Operand)) (given : Option RowProgram)
    (share even : Bool) : Build Refusal (List Expr × RowProgram) := do
  let rows ← check rows
  packBits p rows given share even

end Row
end CircuitSketch
