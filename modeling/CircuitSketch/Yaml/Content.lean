import CircuitSketch.Datum.Members
import CircuitSketch.Yaml.Merge
import CircuitSketch.Yaml.Scalar

/-!
# Contents of nodes

A node stands for a datum. Its contents are that datum with the parts given by the numbers of their
nodes. Scalars get their contents when they are met. Collections wait until those that were met
before have got theirs, and a datum that cannot be built is found in that order.

The contents are unfolded to data. A collection may hold itself, so the data get deeper step by step
until they are whole or deep enough to be shown.
-/
namespace CircuitSketch.Yaml.Graph

/-- The datum of a node, with the numbers of the nodes of its parts. -/
inductive Content
  | leaf (d : Datum)
  | list (items : List Nat)
  | pairs (items : List (Nat × Nat))
  | set (members : List Datum)
  | object (entries : List (Datum × Nat))

/-- The state of finding contents: the nodes, the contents so far, and the collections that wait,
the last one first. -/
structure Builder where
  nodes : Array Node
  contents : Array (Option Content)
  waiting : List Nat

/-- A step of finding contents. -/
abbrev Building := StateT Builder (Except Fault)

/-- The contents of a scalar. A map with a lone equals sign as a key counts as the scalar there. The
`fuel` bounds the number of maps on the way. -/
def scalarAt (nodes : Array Node) : (fuel number : Nat) → Except Fault (List Nat)
  | 0, _ => .error .malformed
  | fuel + 1, number =>
    match nodes.getD number .nothing with
    | .scalar _ ps => .ok ps
    | .list .. => .error .malformed
    | .map _ entries =>
      match entries.find? fun e => tagAt nodes e.1 = .value with
      | some e => scalarAt nodes fuel e.2
      | none => .error .malformed

/-- Gives a node its contents. -/
def putContent (number : Nat) (c : Content) : Building Unit :=
  modify fun b => { b with contents := b.contents.setIfInBounds number (some c) }

/-- Meets a node. A collection is empty until its turn comes. -/
def meet (number : Nat) : Building Unit := do
  let b ← get
  match b.contents.getD number none with
  | some _ => pure ()
  | none =>
    match tagAt b.nodes number with
    | .list | .pairs | .set | .map =>
      set { b with waiting := number :: b.waiting }
      putContent number (.list [])
    | tag =>
      let ps ← scalarAt b.nodes (b.nodes.size + 1) number
      putContent number (.leaf (← scalarDatum number tag ps))

/-- The datum of a key. Collections are none. -/
def keyAt (number : Nat) : Building Datum := do
  meet number
  match (← get).contents.getD number none with
  | some (.leaf d) => return d
  | _ => throw .malformed

/-- Meets the parts of a map in order. The result are its entries, a later one in the place of an
earlier one with an alike key. -/
def meetEntries (entries : List (Nat × Nat)) : Building (List (Datum × Nat)) :=
  entries.foldlM (fun object (e : Nat × Nat) => do
    let key ← keyAt e.1
    meet e.2
    return Datum.insertEntry object key e.2) []

/-- Meets the only entry of a map. -/
def meetPair (number : Nat) : Building (Nat × Nat) := do
  match (← get).nodes.getD number .nothing with
  | .map _ [(key, value)] =>
    meet key
    meet value
    return (key, value)
  | _ => throw .malformed

/-- Gives a collection its contents. -/
def fill (number : Nat) : Building Unit := do
  let b ← get
  match tagAt b.nodes number, b.nodes.getD number .nothing with
  | .list, .list _ items =>
    items.forM meet
    putContent number (.list items)
  | .pairs, .list _ items => putContent number (.pairs (← items.mapM meetPair))
  | .map, .map .. => putContent number (.object (← entriesOf b))
  | .set, .map .. =>
    putContent number (.set (Datum.shownMembers ((← entriesOf b).map (·.1))))
  | _, _ => throw .malformed
where
  /-- The entries of the map, together with those that it takes over. -/
  entriesOf (b : Builder) : Building (List (Datum × Nat)) := do
    let nodes ← merged b.nodes number
    set { b with nodes := nodes }
    meetEntries (entriesAt nodes number)

/-- Gives the collections that wait their contents, and those that are met meanwhile. The `fuel`
bounds the depth of the nodes. -/
def fillAll : (fuel : Nat) → Building Unit
  | 0 => pure ()
  | fuel + 1 => do
    let b ← get
    if b.waiting.isEmpty then pure ()
    else
      set { b with waiting := [] }
      b.waiting.reverse.forM fill
      fillAll fuel

/-- The contents of all nodes that the root leads to. -/
def contents (g : Graph) : Except Fault (Array (Option Content)) := do
  let start : Builder := ⟨g.nodes, Array.replicate g.nodes.size none, []⟩
  let (_, b) ← (do meet g.root; fillAll (g.nodes.size + 1)).run start
  return b.contents

/-- Data that may still be incomplete, and whether they are whole, by the numbers of their nodes. -/
abbrev Unfolded := Array (Datum × Bool)

namespace Unfolded

/-- The datum of a node. -/
def datum (u : Unfolded) (number : Nat) : Datum := (u.getD number (.null, true)).1

/-- Whether the datum of a node is whole. -/
def isWhole (u : Unfolded) (number : Nat) : Bool := (u.getD number (.null, true)).2

/-- The datum of a node from its contents. Every collection carries a mark of its own. -/
def build (u : Unfolded) (number : Nat) : Content → Datum × Bool
  | .leaf d => (d, true)
  | .list items => (.shared (number + 1) (.list (items.map u.datum)), items.all u.isWhole)
  | .pairs items =>
    (.shared (number + 1) (.list (items.map fun p => .pair (u.datum p.1) (u.datum p.2))),
      items.all fun p => u.isWhole p.1 && u.isWhole p.2)
  | .set members => (.shared (number + 1) (.set members), true)
  | .object entries =>
    (.shared (number + 1) (.object (entries.map fun e => (e.1, u.datum e.2))),
      entries.all fun e => u.isWhole e.2)

/-- Data that are one level deeper. -/
def deepen (contents : Array (Option Content)) (u : Unfolded) : Unfolded :=
  contents.mapIdx fun number c =>
    match c with
    | some c => u.build number c
    | none => (.null, true)

/-- Data that are whole, or as many levels deeper. -/
def deepenTimes (contents : Array (Option Content)) : (levels : Nat) → Unfolded → Unfolded
  | 0, u => u
  | levels + 1, u =>
    if u.all (·.2) then u else deepenTimes contents levels (u.deepen contents)

end Unfolded

/-- The levels that a datum needs besides one for each collection, so that parts of it can be shown
as well. -/
def spareLevels : Nat := 6

/-- The datum of the root. -/
def datum (g : Graph) : Except Fault Datum := do
  let contents ← g.contents
  let start : Unfolded := Array.replicate contents.size (.null, false)
  return (Unfolded.deepenTimes contents (contents.size + spareLevels) start).datum g.root

end CircuitSketch.Yaml.Graph
