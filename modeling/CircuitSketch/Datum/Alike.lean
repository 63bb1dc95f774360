import CircuitSketch.Datum.Basic

/-!
# Equality of data

There are two. Data that are *alike* have the same contents, and a truth value is alike to the
number that it stands for; this decides which keys of an object are one key. Data that are the
*same* are alike, and moreover a truth value differs from every number, while a list, a pair and
bytes are the same if they have the same items.

Data of one mark are both. This matters for the undefined fraction, which is alike to nothing else.
-/
namespace CircuitSketch.Datum

/-- Whether a datum carries a mark. -/
def hasMark (mark : Nat) (d : Datum) : Bool := d.mark? == some mark

/-- Whether two data without parts are alike. -/
def leafAlike (a b : Datum) : Bool :=
  match a, b with
  | null, null => true
  | bytes as, bytes bs => as == bs
  | date d, date e => d.same e
  | a, b =>
    match a.points?, b.points? with
    | some ps, some qs => ps == qs
    | none, none =>
      match a.magnitude?, b.magnitude? with
      | some x, some y => x.equal y
      | _, _ => false
    | _, _ => false

mutual
/-- Whether two data are alike: lists item by item, sets when they have alike members, and objects
when they hold alike values at alike keys, in any order. -/
def alike : Datum → Datum → Bool
  | shared mark a, b => b.hasMark mark || alike a b
  | list xs, b =>
    match b.bare with
    | list ys => alikeItems xs ys
    | _ => false
  | pair x x', b =>
    match b.bare with
    | pair y y' => alike x y && alike x' y'
    | _ => false
  | set xs, b =>
    match b.bare with
    | set ys => xs.length == ys.length && alikeMembers xs ys
    | _ => false
  | object xs, b =>
    match b.bare with
    | object ys => xs.length == ys.length && alikeEntries xs ys
    | _ => false
  | a, b => leafAlike a b.bare

/-- Whether two lists are alike item by item. -/
def alikeItems : List Datum → List Datum → Bool
  | [], [] => true
  | x :: xs, y :: ys => alike x y && alikeItems xs ys
  | _, _ => false

/-- Whether every one of some members has an alike one among others. -/
def alikeMembers : List Datum → List Datum → Bool
  | [], _ => true
  | x :: xs, ys => ys.any (fun y => alike x y) && alikeMembers xs ys

/-- Whether every entry of the first object has an alike one in the second. -/
def alikeEntries : List (Datum × Datum) → List (Datum × Datum) → Bool
  | [], _ => true
  | (key, x) :: xs, ys =>
    (match ys.find? fun y => alike key y.1 with
      | some y => alike x y.2
      | none => false) && alikeEntries xs ys
end

/-- The items of a datum that has items in an order. -/
def items? (d : Datum) : Option (List Datum) :=
  match d.bare with
  | list xs => some xs
  | pair x y => some [x, y]
  | bytes bs => some (bs.map fun (b : Nat) => int b)
  | _ => none

/-- Whether two data without parts are the same. -/
def leafSame (a b : Datum) : Bool :=
  match a, b with
  | bool a, bool b => a == b
  | bool _, _ => false
  | _, bool _ => false
  | a, b => leafAlike a b

mutual
/-- Whether two data are the same. The members of sets and the keys of objects only have to be
alike. -/
def same : Datum → Datum → Bool
  | shared mark a, b => b.hasMark mark || same a b
  | list xs, b =>
    match b.items? with
    | some ys => sameItems xs ys
    | none => false
  | pair x x', b =>
    match b.items? with
    | some [y, y'] => same x y && same x' y'
    | _ => false
  | bytes bs, b =>
    match b.items? with
    | some ys =>
      bs.length == ys.length && (bs.zip ys).all fun (p : Nat × Datum) => leafSame (int p.1) p.2.bare
    | none => false
  | set xs, b => alike (set xs) b
  | object xs, b =>
    match b.bare with
    | object ys => xs.length == ys.length && sameEntries xs ys
    | _ => false
  | a, b => leafSame a b.bare

/-- Whether two lists are the same item by item. -/
def sameItems : List Datum → List Datum → Bool
  | [], [] => true
  | x :: xs, y :: ys => same x y && sameItems xs ys
  | _, _ => false

/-- Whether every entry of the first object has one in the second that holds the same value. -/
def sameEntries : List (Datum × Datum) → List (Datum × Datum) → Bool
  | [], _ => true
  | (key, x) :: xs, ys =>
    (match ys.find? fun y => alike key y.1 with
      | some y => same x y.2
      | none => false) && sameEntries xs ys
end

/-- The entries of an object with one more, that holds some value. A key that is alike to an earlier
one gives its value to that. -/
def insertEntry {α : Type} (entries : List (Datum × α)) (key : Datum) (value : α) :
    List (Datum × α) :=
  if entries.any fun e => alike e.1 key then
    entries.map fun e => if alike e.1 key then (e.1, value) else e
  else entries ++ [(key, value)]

end CircuitSketch.Datum
