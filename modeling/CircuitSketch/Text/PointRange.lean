/-!
# Ranges of code points

Properties of characters are listed as closed ranges of code points in increasing order, so that a
point is found by binary search.
-/
namespace CircuitSketch.Text

/-- Closed ranges of code points in increasing order. -/
abbrev PointRanges := Array (Nat × Nat)

/-- The first position between `lo` and `hi` whose start is above a point, where starts increase.
The `fuel` bounds the halvings. -/
def startsUpTo (start : Nat → Nat) (point : Nat) : (fuel lo hi : Nat) → Nat
  | 0, lo, _ => lo
  | fuel + 1, lo, hi =>
    if lo < hi then
      let mid := (lo + hi) / 2
      if start mid ≤ point then startsUpTo start point fuel (mid + 1) hi
      else startsUpTo start point fuel lo mid
    else lo

/-- The last of some parts that starts at or below a point, where starts increase. -/
def lastStarting? {α : Type} (start : α → Nat) (parts : Array α) (point : Nat) : Option α :=
  let starts (i : Nat) : Nat := (parts[i]?.map start).getD 0
  match startsUpTo starts point parts.size 0 parts.size with
  | 0 => none
  | k + 1 => parts[k]?

/-- Whether a code point is in one of some ranges. -/
def inRanges (ranges : PointRanges) (point : Nat) : Bool :=
  (lastStarting? (·.1) ranges point).any fun r => point ≤ r.2

end CircuitSketch.Text
