import CircuitSketch.Yaml.Node

/-!
# Maps that take over entries

A map can take over the entries of another one, or of several in a list. They are put in front of
its own entries, which therefore override them. Of a list, the last map comes first.

A map that takes over entries is changed once and for all, so that whoever takes over its entries
gets the others as well. Taking over itself adds nothing but what it had.
-/
namespace CircuitSketch.Yaml.Graph

/-- The tag of a node with a number. -/
def tagAt (nodes : Array Node) (number : Nat) : Tag := (nodes.getD number .nothing).tag

/-- The entries of a map with a number. -/
def entriesAt (nodes : Array Node) (number : Nat) : List (Nat × Nat) :=
  match nodes[number]? with
  | some (.map _ entries) => entries
  | _ => []

/-- Gives a map other entries. -/
def putEntries (nodes : Array Node) (number : Nat) (entries : List (Nat × Nat)) : Array Node :=
  nodes.setIfInBounds number (.map (tagAt nodes number) entries)

/-- A lone equals sign stands for itself as a key. -/
def plainKeys (nodes : Array Node) (entries : List (Nat × Nat)) : Array Node :=
  entries.foldl
    (fun nodes e =>
      if tagAt nodes e.1 = .value then nodes.modify e.1 (Node.withTag .text) else nodes)
    nodes

/-- The number of entries of all maps. -/
def entryCount (nodes : Array Node) : Nat :=
  nodes.foldl (fun n node => match node with
    | .map _ entries => n + entries.length
    | _ => n) 0

mutual
/-- The nodes once a map has taken over what it is meant to, where `taken` has been taken over
before. The `fuel` bounds the number of entries that ask for it. -/
def merge : (fuel : Nat) → (taken : List (Nat × Nat)) → Array Node → (number : Nat) →
    Except Fault (Array Node)
  | 0, _, _, _ => .error .malformed
  | fuel + 1, taken, nodes, number =>
    let entries := entriesAt nodes number
    match entries.findIdx? fun e => tagAt nodes e.1 = .merge with
    | none =>
      let entries := taken ++ entries
      .ok (plainKeys (putEntries nodes number entries) entries)
    | some i => do
      let nodes := putEntries nodes number (entries.eraseIdx i)
      let source := (entries.getD i (0, 0)).2
      match nodes.getD source .nothing with
      | .map .. =>
        let nodes ← merge fuel [] nodes source
        merge fuel (taken ++ entriesAt nodes source) nodes number
      | .list _ items =>
        let (more, nodes) ← mergeAll fuel nodes items
        merge fuel (taken ++ more) nodes number
      | .scalar .. => throw .malformed

/-- The entries of the maps of a list, those of the last one first. -/
def mergeAll : (fuel : Nat) → Array Node → List Nat → Except Fault (List (Nat × Nat) × Array Node)
  | 0, _, _ => .error .malformed
  | _, nodes, [] => .ok ([], nodes)
  | fuel + 1, nodes, number :: rest =>
    match nodes.getD number .nothing with
    | .map .. => do
      let nodes ← merge fuel [] nodes number
      let own := entriesAt nodes number
      let (more, nodes) ← mergeAll fuel nodes rest
      return (more ++ own, nodes)
    | _ => .error .malformed
end

/-- The nodes once a map has taken over what it is meant to. -/
def merged (nodes : Array Node) (number : Nat) : Except Fault (Array Node) :=
  merge (entryCount nodes + nodes.size + 2) [] nodes number

end CircuitSketch.Yaml.Graph
