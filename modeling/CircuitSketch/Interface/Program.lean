import CircuitSketch.Bits.Word
import CircuitSketch.Datum.Alike
import CircuitSketch.Expr.Basic

/-!
# Programs of primitives

What a placed primitive, or a circuit made of several, is programmed by: the holes that decide what
it computes. A program handed to a second request makes both share their holes, so that both are
programmed alike.
-/
namespace CircuitSketch

/-- The table of a lookup table. Entry `i` is the output where the inputs stand for `i`. -/
structure LutProgram where
  inputs : Int
  table : List Hole
deriving DecidableEq

/-- The program of a multiplexer; fixed hardware has no table. -/
structure MuxProgram where
  inputs : Int
  lut : Option LutProgram
deriving DecidableEq

/-- A carry chain has nothing to program; its width is kept. -/
structure CarryProgram where
  width : Int
deriving DecidableEq

/-- The program of a row of lookup tables: one table that all share or one for each, and the hole
wired to inputs that the row leaves over. -/
structure RowProgram where
  luts : List LutProgram
  pad : Option Hole
deriving DecidableEq

/-- The programs of the levels of a reduction, first level first. -/
structure ReductionProgram where
  levels : List RowProgram
deriving DecidableEq

/-- A carry chain with a hole for its carry in. -/
structure ChainProgram where
  carry : CarryProgram
  carryIn : Hole
deriving DecidableEq

/-- A bitwise function that feeds a carry chain. -/
structure AdderProgram where
  bitwise : LutProgram
  chain : ChainProgram
deriving DecidableEq

/-- Two bitwise functions that feed a carry chain. -/
structure ComparisonProgram where
  di : LutProgram
  s : LutProgram
  chain : ChainProgram
deriving DecidableEq

/-- The partial products and the sum of a multiplication; one row needs no sum. -/
structure ProductProgram where
  products : LutProgram
  sum : Option AdderProgram
deriving DecidableEq

/-- The multiplexers of a shift, the reduction that tells whether everything is shifted out, and the
number of stages as it was given. -/
structure ShiftProgram where
  mux : MuxProgram
  saturate : Option ReductionProgram
  stages : Datum

/-- A program of any kind. -/
inductive Program
  | lut (p : LutProgram)
  | mux (p : MuxProgram)
  | carry (p : CarryProgram)
  | row (p : RowProgram)
  | reduction (p : ReductionProgram)
  | chain (p : ChainProgram)
  | adder (p : AdderProgram)
  | comparison (p : ComparisonProgram)
  | product (p : ProductProgram)
  | shift (p : ShiftProgram)

/-- The name that messages use for a kind of program. -/
def Program.kind : Program → String
  | lut _ => "LutData"
  | mux _ => "MuxData"
  | carry _ => "CarryData"
  | row _ => "PackData"
  | reduction _ => "ReductionState"
  | chain _ => "CarryState"
  | adder _ => "BitwiseCarryState"
  | comparison _ => "ComparisonState"
  | product _ => "MultiplicationState"
  | shift _ => "ShiftState"

/-- The holes of a multiplexer's program. -/
def MuxProgram.holes (p : MuxProgram) : List Hole :=
  match p.lut with
  | some l => l.table
  | none => []

/-- The holes of a row's program. -/
def RowProgram.holes (p : RowProgram) : List Hole :=
  p.luts.flatMap LutProgram.table ++ p.pad.toList

/-- The holes of a reduction's program. -/
def ReductionProgram.holes (p : ReductionProgram) : List Hole :=
  p.levels.flatMap RowProgram.holes

/-- The holes of an adder's program. -/
def AdderProgram.holes (p : AdderProgram) : List Hole :=
  p.bitwise.table ++ [p.chain.carryIn]

/-- The holes of a program, field by field. -/
def Program.holes : Program → List Hole
  | lut p => p.table
  | mux p => p.holes
  | carry _ => []
  | row p => p.holes
  | reduction p => p.holes
  | chain p => [p.carryIn]
  | adder p => p.holes
  | comparison p => p.di.table ++ p.s.table ++ [p.chain.carryIn]
  | product p => p.products.table ++ (p.sum.map AdderProgram.holes).getD []
  | shift p => p.mux.holes ++ (p.saturate.map ReductionProgram.holes).getD []

/-- Whether two programs are of one kind and agree field by field. A number of stages that was given
as a truth value agrees with the number that it stands for. -/
def Program.alike : Program → Program → Bool
  | lut p, lut q => p = q
  | mux p, mux q => p = q
  | carry p, carry q => p = q
  | row p, row q => p = q
  | reduction p, reduction q => p = q
  | chain p, chain q => p = q
  | adder p, adder q => p = q
  | comparison p, comparison q => p = q
  | product p, product q => p = q
  | shift p, shift q => p.mux = q.mux && p.saturate = q.saturate && p.stages.alike q.stages
  | _, _ => false

/-- The inputs that entry `index` of a table stands for, first input first. -/
def LutProgram.inputsAt (p : LutProgram) (index : Nat) : List Bool :=
  Word.ofNat p.inputs.toNat index

/-- The values that a function of the inputs asks for, entry by entry. Nothing where the function
has no value for some inputs. -/
def LutProgram.wanted (p : LutProgram) (f : List Bool → Option Bool) :
    Option (List (Hole × Bool)) :=
  p.table.zipIdx.mapM fun entry => (f (p.inputsAt entry.2)).map fun b => (entry.1, b)

/-- The values that make a table compute a function of its inputs, hole by hole. A hole that is used
for several entries has the value of the last one. -/
def LutProgram.compute (p : LutProgram) (f : List Bool → Option Bool) :
    Option (List (Hole × Bool)) :=
  (p.wanted f).map fun entries =>
    let values : List (Hole × Bool) := entries.reverse
    entries.map fun e => (e.1, (values.lookup e.1).getD e.2)

end CircuitSketch
