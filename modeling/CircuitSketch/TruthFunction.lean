import CircuitSketch.Bits.Word

/-!
# Functions for lookup tables

The functions of a list of inputs that lookup tables are commonly programmed with. A function that
reads an input by number has no value where there is no such input. Numbers below zero count from
the end.
-/
namespace CircuitSketch

/-- A function from a list of input bits to one bit. -/
inductive TruthFunction
  | all
  | any
  | odd
  | notAll
  | notAny
  | even
  | never
  | always
  | majority
  | multiplex
  | equalHalves
  | input (k : Int)
  | notInput (k : Int)
  | table (entries : Int)
deriving DecidableEq, Repr

namespace TruthFunction

/-- Whether an odd number of bits is set. -/
def parity (x : List Bool) : Bool := x.foldl Bool.xor false

/-- The input of a number. -/
def inputAt (x : List Bool) (k : Int) : Option Bool :=
  let i := if k < 0 then k + x.length else k
  if i < 0 then none else x[i.toNat]?

/-- The value of a function. `multiplex` reads its last input as the selector of the first two,
`equalHalves` compares the first half of the inputs with the rest, and `table` looks the inputs up
as a number, the first one lowest. -/
def apply (f : TruthFunction) (x : List Bool) : Option Bool :=
  match f with
  | all => some (x.all id)
  | any => some (x.any id)
  | odd => some (parity x)
  | notAll => some !(x.all id)
  | notAny => some !(x.any id)
  | even => some !(parity x)
  | never => some false
  | always => some true
  | majority => some (decide (2 * x.count true > x.length))
  | multiplex => x.getLast? >>= fun s => if s then x[1]? else x[0]?
  | equalHalves => some (x.take (x.length / 2) == x.drop (x.length / 2))
  | input k => inputAt x k
  | notInput k => (inputAt x k).map not
  | table entries => some (decide (entries >>> Word.toNat x % 2 = 1))

/-- The functions that are known by a name alone. -/
def named : List (String × TruthFunction) :=
  [("and", all), ("or", any), ("xor", odd), ("nand", notAll), ("nor", notAny), ("xnor", even),
    ("zero", never), ("one", always), ("maj", majority), ("mux", multiplex),
    ("eqhalf", equalHalves), ("count", any)]

/-- The function of a name. -/
def ofName? (name : String) : Option TruthFunction := named.lookup name

end TruthFunction
end CircuitSketch
