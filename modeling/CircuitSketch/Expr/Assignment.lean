import CircuitSketch.Bits.Power
import CircuitSketch.Expr.Walk
import Std.Data.HashMap

/-!
# Assignments

An assignment settles some of the holes. A hole is settled by a number or by a constant node; the
latter keeps its identity when it takes the place of the hole.
-/
namespace CircuitSketch

/-- What settles a hole: a number, or a constant node with its tag, width and value. -/
inductive HoleValue
  | number (n : Int)
  | constant (tag width value : Nat)
deriving DecidableEq, Repr, Inhabited

/-- Values for some of the holes. -/
abbrev Assignment := Std.HashMap Hole HoleValue

namespace HoleValue

/-- The number that settles the hole. -/
def toInt : HoleValue → Int
  | number n => n
  | constant _ _ value => value

end HoleValue

namespace Assignment

/-- Values for holes, where a later entry for the same hole replaces an earlier one. -/
def ofList (entries : List (Hole × HoleValue)) : Assignment := Std.HashMap.ofList entries

/-- The entries that give every listed hole one value. -/
def fill (holes : List Hole) (value : HoleValue) : List (Hole × HoleValue) :=
  holes.map fun h => (h, value)

/-- The next state of a linear congruential sequence modulo `twoPow 31`. -/
def nextState (state : Int) : Int := (state * 1103515245 + 12345) % twoPow 31

/-- The entries that give listed holes the values of a linear congruential sequence, each cut to the
width of its hole. -/
def scatter (seed : Int) : List Hole → List (Hole × HoleValue)
  | [] => []
  | h :: rest =>
    let state := nextState seed
    (h, .number (state >>> 16 % twoPow h.width)) :: scatter state rest

end Assignment
end CircuitSketch
