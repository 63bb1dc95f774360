import CircuitSketch.Bits.Power
import CircuitSketch.Datum.Alike

/-!
# The members of a set

A set keeps its members in a table whose size is a power of two and at least twice their number, or
eight. A number has its place by its remainder; if that is taken, one of the next places, and then
places that are found by mixing in the other digits. The members are shown in the order of their
places. A datum of another kind has no certain place, and sets with such members keep the order in
which the members came.
-/
namespace CircuitSketch.Datum

/-- Remainders are taken by this prime. -/
def placeModulus : Nat := twoPow 61 - 1

/-- Negative remainders are counted down from here. -/
def placeRange : Nat := twoPow 64

/-- The remainder that places a fraction. That of an infinite one is agreed upon. -/
def fractionResidue? : Fraction → Option Int
  | .finite negative m e =>
    some (Fraction.signed negative (m % placeModulus * twoPow (e % 61).toNat % placeModulus))
  | .infinite negative => some (Fraction.signed negative 314159)
  | .undefined => none

/-- The number that places a member in a table. -/
def placing? (d : Datum) : Option Nat :=
  let residue? : Option Int := match d.bare with
    | fraction x => fractionResidue? x
    | d => d.number?.map fun n => Fraction.signed (decide (n < 0)) (n.natAbs % placeModulus)
  residue?.map fun r =>
    if r = -1 then placeRange - 2 else (r % (placeRange : Int)).toNat

/-- The size of the table for a number of members. -/
def tableSize (count : Nat) : Nat := if count ≤ 4 then 8 else twoPow ((2 * count).log2 + 1)

/-- The places next to one that are tried as well. -/
def neighbours : Nat := 9

/-- The places of a table in the order in which they are tried. The `fuel` bounds the jumps. -/
def placesFrom (size : Nat) : (fuel place mixed : Nat) → List Nat
  | 0, _, _ => []
  | fuel + 1, place, mixed =>
    let further := if place + neighbours < size then neighbours else 0
    let mixed := mixed / 32
    List.range' place (further + 1) ++ placesFrom size fuel ((5 * place + 1 + mixed) % size) mixed

/-- Puts a member into the first place that is free. -/
def putMember (table : Array (Option Datum)) (d : Datum) (placing : Nat) : Array (Option Datum) :=
  let size := table.size
  let places := placesFrom size (size + 16) (placing % size) placing
  match places.find? fun i => (table[i]?).any Option.isNone with
  | some i => table.setIfInBounds i (some d)
  | none => table

/-- The members of a set in the order in which they are shown, given in the order they came. -/
def shownMembers (members : List Datum) : List Datum :=
  match members.mapM placing? with
  | some placings =>
    let table := Array.replicate (tableSize members.length) none
    let table := (members.zip placings).foldl (fun table m => putMember table m.1 m.2) table
    table.toList.filterMap id
  | none => members

end CircuitSketch.Datum
