import CircuitSketch.Template.Carry

/-!
# Multiplication

Row `i` of the partial products has the product of bit `j - i` of the first input and bit `i` of the
second in column `j`, and zero in the columns below. One table serves all products. The rows are
summed one after the other by adders that share one program.
-/
namespace CircuitSketch.Template

/-- The part of row `i` from column `j` on, `columns` of them. -/
def productColumns (p : Platform) (a b zero : Expr) (i : Nat) :
    (columns j : Nat) → Option LutProgram → Build Refusal (List Expr × Option LutProgram)
  | 0, _, given => pure ([], given)
  | columns + 1, j, given => do
    if i ≤ j then
      let x ← Build.bit a (j - i)
      let y ← Build.bit b i
      let (out, program) ← p.lut [x, y] given
      let (rest, last) ← productColumns p a b zero i columns (j + 1) (some program)
      pure (out :: rest, last)
    else
      let (rest, last) ← productColumns p a b zero i columns (j + 1) given
      pure (zero :: rest, last)

/-- The rows of partial products from row `i` on, `rows` of them. -/
def productRows (p : Platform) (a b zero : Expr) (width : Nat) :
    (rows i : Nat) → Option LutProgram → Build Refusal (List Expr × Option LutProgram)
  | 0, _, given => pure ([], given)
  | rows + 1, i, given => do
    let (columns, program) ← productColumns p a b zero i width 0 given
    let row ← Build.concatBits columns
    let (rest, last) ← productRows p a b zero width rows (i + 1) program
    pure (row :: rest, last)

/-- The sum of a word and rows. -/
def sumRows (p : Platform) (width : Nat) (total : Expr) :
    List Expr → Option AdderProgram → Build Refusal (Expr × Option AdderProgram)
  | [], given => pure (total, given)
  | row :: rest, given => do
    let (next, program) ← adderOf p [total, row] width given
    sumRows p width next rest (some program)

/-- The sketch of a multiplication of checked inputs. -/
def productOf (p : Platform) (a b : Expr) (width : Nat) (given : Option ProductProgram) :
    Build Refusal (Expr × ProductProgram) := do
  let zero ← Build.const 1 0
  let (rows, products) ←
    productRows p a b zero width width 0 (given.map ProductProgram.products)
  let (total, sum) ← sumRows p width (rows.headD zero) rows.tail (given.bind ProductProgram.sum)
  pure (total, ⟨products.getD ⟨2, []⟩, sum⟩)

/-- A multiplication cut to the width of its inputs. -/
def product (p : Platform) (inputs : List Operand) (count width : Datum)
    (given : Option GivenProgram) : Build Refusal (Expr × ProductProgram) := do
  let (es, w) ← checkInputs ⟨"multiplication", some 2, true⟩ inputs count width
  let program ← expect "multiplication" "MultiplicationState"
    (fun
      | .product m => some m
      | _ => none) given
  match es with
  | [a, b] =>
    productOf p a b w program
  | _ => Build.fail (.arity (.noInputs "multiplication"))

end CircuitSketch.Template
