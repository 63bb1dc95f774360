import CircuitSketch.Datum.Alike

/-!
# Lists without repetition

A list of data repeats itself if two of its items are the same. The items are sorted first, so that
only neighbours have to be compared. Not all data have an order: if the sorting meets two items
without one, every item is compared with every other instead.

The order does not tell a truth value inside a list from its number, and the sorting keeps items in
their place that are not ordered. Two items that are the same may therefore be kept apart by one
that is only alike to them, and such a list does not count as repeating itself.
-/
namespace CircuitSketch.Datum

/-- Whether a datum without parts is less than another; nothing if they have no order. -/
def leafLess? (a b : Datum) : Option Bool :=
  match a, b with
  | bytes as, bytes bs => some (decide (as < bs))
  | date d, date e => d.before? e
  | a, b =>
    match a.points?, b.points? with
    | some ps, some qs => some (decide (ps < qs))
    | none, none =>
      match a.magnitude?, b.magnitude? with
      | some x, some y => some (x.less y)
      | _, _ => none
    | _, _ => none

mutual
/-- Whether a datum is less than another; nothing if they have no order. Lists are ordered by their
first items that are not alike, or else by their lengths, and a set is less than one that has all of
its members and more. -/
def less? : Datum → Datum → Option Bool
  | shared _ a, b => less? a b
  | list xs, b =>
    match b.bare with
    | list ys => lessItems? xs ys
    | _ => none
  | pair x x', b =>
    match b.bare with
    | pair y y' =>
      if alike x y then if alike x' y' then some false else less? x' y' else less? x y
    | _ => none
  | set xs, b =>
    match b.bare with
    | set ys => some (decide (xs.length < ys.length) && alikeMembers xs ys)
    | _ => none
  | a, b => leafLess? a b.bare

/-- The order of lists. -/
def lessItems? : List Datum → List Datum → Option Bool
  | [], ys => some !ys.isEmpty
  | _ :: _, [] => some false
  | x :: xs, y :: ys => if alike x y then lessItems? xs ys else less? x y
end

/-- The order of the items of a list. A truth value has no order there. -/
def itemLess? : Datum → Datum → Option Bool
  | bool _, _ => none
  | _, bool _ => none
  | a, b => less? a b

/-- Splits off the longest start of a list in which no item is less than the one before it. -/
def ascending (last : Datum) : List Datum → Option (List Datum × List Datum)
  | [] => some ([], [])
  | d :: rest => do
    if ← itemLess? d last then pure ([], d :: rest)
    else
      let (run, rest) ← ascending d rest
      pure (d :: run, rest)

/-- Splits off the longest start of a list in which every item is less than the one before it. -/
def descending (last : Datum) : List Datum → Option (List Datum × List Datum)
  | [] => some ([], [])
  | d :: rest => do
    if ← itemLess? d last then
      let (run, rest) ← descending d rest
      pure (d :: run, rest)
    else pure ([], d :: rest)

/-- The sorted start of a list, a falling one turned round, and the items after it. -/
def sortedStart : List Datum → Option (List Datum × List Datum)
  | a :: b :: rest => do
    if ← itemLess? b a then
      let (run, rest) ← descending b rest
      pure ((a :: b :: run).reverse, rest)
    else
      let (run, rest) ← ascending b rest
      pure (a :: b :: run, rest)
  | ds => some (ds, [])

/-- The place of an item among sorted ones, after those that it is not less than. The `fuel` bounds
the halvings. -/
def placeOf (sorted : Array Datum) (d : Datum) : (fuel lo hi : Nat) → Option Nat
  | 0, lo, _ => some lo
  | fuel + 1, lo, hi =>
    if lo < hi then do
      let mid := (lo + hi) / 2
      if ← itemLess? d (sorted.getD mid d) then placeOf sorted d fuel lo mid
      else placeOf sorted d fuel (mid + 1) hi
    else some lo

/-- Puts further items into a sorted list, one after the other. -/
def insertAll (sorted : List Datum) : List Datum → Option (List Datum)
  | [] => some sorted
  | d :: rest => do
    let place ← placeOf sorted.toArray d sorted.length 0 sorted.length
    insertAll (sorted.take place ++ d :: sorted.drop place) rest

/-- The items of a list in order, if every comparison on the way has an answer. -/
def sort? (ds : List Datum) : Option (List Datum) := do
  let (start, rest) ← sortedStart ds
  insertAll start rest

/-- Whether no two neighbours are the same. -/
def distinctNeighbours : List Datum → Bool
  | a :: b :: rest => !same a b && distinctNeighbours (b :: rest)
  | _ => true

/-- Whether no item is the same as a later one. -/
def pairwiseDistinct : List Datum → Bool
  | [] => true
  | d :: rest => !rest.any (same d) && pairwiseDistinct rest

/-- Whether a list does not repeat itself. -/
def distinct (ds : List Datum) : Bool :=
  match sort? ds with
  | some sorted => distinctNeighbours sorted
  | none => pairwiseDistinct ds

end CircuitSketch.Datum
