import CircuitSketch.Yaml.Tag
import CircuitSketch.Yaml.Token

/-!
# Nodes of a document

The tokens of a document form scalars, lists and maps, its nodes. Nodes have numbers, and a
collection holds the numbers of its parts, because an alias lets a node be a part of several others,
and even of itself.

The `fuel` of a reader bounds its nesting and its steps; a multiple of the number of tokens is
enough. Where no token fits, the fault is the one that ended the tokens, if there is one.
-/
namespace CircuitSketch.Yaml

/-- A node, with the numbers of its parts. -/
inductive Node
  | scalar (tag : Tag) (contents : List Nat)
  | list (tag : Tag) (items : List Nat)
  | map (tag : Tag) (entries : List (Nat × Nat))

namespace Node

/-- What stands where nothing is written. -/
def nothing : Node := scalar .null []

/-- The tag of a node. -/
def tag : Node → Tag
  | scalar t _ => t
  | list t _ => t
  | map t _ => t

/-- A node with another tag. -/
def withTag (t : Tag) : Node → Node
  | scalar _ ps => scalar t ps
  | list _ items => list t items
  | map _ entries => map t entries

end Node

/-- The nodes of a document by their numbers, and the number of the root. -/
structure Graph where
  nodes : Array Node
  root : Nat

namespace Graph

/-- The state of reading nodes: what is left of the tokens, the numbers of the nodes that anchors
name, and the nodes so far. -/
structure Reader where
  tokens : List Token
  anchors : List (List Char × Nat)
  nodes : Array Node

namespace Reader

/-- The state in front of some tokens. -/
def start (tokens : List Token) : Reader := ⟨tokens, [], #[]⟩

/-- The next token. -/
def peek (s : Reader) : Token := s.tokens.headD .streamEnd

/-- The state after the next token. -/
def next (s : Reader) : Reader := { s with tokens := s.tokens.tail }

/-- The fault of a token that does not fit. -/
def unexpected {α : Type} (s : Reader) : Except Fault α :=
  match s.peek with
  | .broken cause => .error cause
  | _ => .error .malformed

/-- Adds a node, which may have an anchor. The result starts with its number. -/
def add (anchor : Option (List Char)) (n : Node) (s : Reader) : Nat × Reader :=
  let number := s.nodes.size
  let anchors := match anchor with
    | some a => (a, number) :: s.anchors
    | none => s.anchors
  (number, { s with anchors := anchors, nodes := s.nodes.push n })

/-- Puts a node in the place of another one. -/
def put (number : Nat) (n : Node) (s : Reader) : Reader :=
  { s with nodes := s.nodes.setIfInBounds number n }

end Reader

/-- What a node is given in front of its contents: an anchor, and a tag by its full name. -/
structure Properties where
  anchor : Option (List Char)
  tag : Option (List Char)

namespace Properties

/-- Whether there are none. -/
def isEmpty (p : Properties) : Bool := p.anchor.isNone && p.tag.isNone

/-- The tag of a node, given the one that it has otherwise. A lone exclamation mark is none. -/
def tagOr (p : Properties) (otherwise : Tag) : Tag :=
  match p.tag with
  | none => otherwise
  | some name => if name = ['!'] then otherwise else .ofName name

/-- The tag of a scalar. One that is not plain stands for a text, unless an exclamation mark is in
front of it. -/
def scalarTag (p : Properties) (isPlain : Bool) (ps : List Nat) : Tag :=
  if isPlain || p.tag = some ['!'] then p.tagOr (.ofSpelling ps) else p.tagOr .text

end Properties

/-- The names that handles of tags stand for. -/
abbrev Handles := List (List Char × List Char)

/-- The full name of a tag. -/
def tagName (handles : Handles) (handle : Option (List Char)) (suffix : List Char) :
    Except Fault (List Char) :=
  match handle with
  | none => .ok suffix
  | some h =>
    match handles.lookup h with
    | some expansion => .ok (expansion ++ suffix)
    | none => .error .malformed

/-- An anchor and a tag, in any order. -/
def properties (handles : Handles) (s : Reader) : Except Fault (Properties × Reader) := do
  match s.tokens with
  | .anchor a :: .tag h t :: rest =>
    return (⟨some a, some (← tagName handles h t)⟩, { s with tokens := rest })
  | .anchor a :: rest => return (⟨some a, none⟩, { s with tokens := rest })
  | .tag h t :: .anchor a :: rest =>
    return (⟨some a, some (← tagName handles h t)⟩, { s with tokens := rest })
  | .tag _ _ :: .broken cause :: _ => throw cause
  | .tag h t :: rest => return (⟨none, some (← tagName handles h t)⟩, { s with tokens := rest })
  | _ => return (⟨none, none⟩, s)

/-- A list whose items are read after it got its number. -/
def listOf (p : Properties) (items : Reader → Except Fault (List Nat × Reader)) (s : Reader) :
    Except Fault (Nat × Reader) := do
  let (number, s) := s.add p.anchor .nothing
  let (items, s) ← items s
  return (number, s.put number (.list (p.tagOr .list) items))

/-- A map whose entries are read after it got its number. -/
def mapOf (p : Properties) (entries : Reader → Except Fault (List (Nat × Nat) × Reader))
    (s : Reader) : Except Fault (Nat × Reader) := do
  let (number, s) := s.add p.anchor .nothing
  let (entries, s) ← entries s
  return (number, s.put number (.map (p.tagOr .map) entries))

/-- Where a node stands, which decides what it may be: block collections are for blocks only, and a
list whose dashes are not indented is for the parts of block maps only. -/
inductive Position
  | flow
  | block
  | mapPart
deriving DecidableEq, Repr

/-- Tokens after which a part of a block map is left out. -/
def endsMapPart : Token → Bool
  | .key | .value | .blockEnd => true
  | _ => false

/-- Tokens after which an item of a block list is left out. -/
def endsItem : Token → Bool
  | .blockItem | .blockEnd => true
  | _ => false

mutual
/-- A node. -/
def node (handles : Handles) : (fuel : Nat) → Position → Reader → Except Fault (Nat × Reader)
  | 0, _, _ => .error .malformed
  | fuel + 1, position, s =>
    match s.tokens with
    | .alias a :: rest =>
      match s.anchors.lookup a with
      | some number => .ok (number, { s with tokens := rest })
      | none => .error .malformed
    | _ => do
      let (p, s) ← properties handles s
      if p.anchor.any fun a => (s.anchors.lookup a).isSome then s.unexpected
      else
        match s.peek, position with
        | .blockItem, .mapPart => listOf p (flushItems handles fuel) s
        | .scalar isPlain ps, _ => return s.next.add p.anchor (.scalar (p.scalarTag isPlain ps) ps)
        | .flowItemsStart, _ => listOf p (flowItems handles fuel true) s.next
        | .flowEntriesStart, _ => mapOf p (flowEntries handles fuel true) s.next
        | .blockItemsStart, .block | .blockItemsStart, .mapPart =>
          listOf p (blockItems handles fuel) s.next
        | .blockEntriesStart, .block | .blockEntriesStart, .mapPart =>
          mapOf p (blockEntries handles fuel) s.next
        | .broken cause, _ => throw cause
        | _, _ =>
          if p.isEmpty then s.unexpected
          else return s.add p.anchor (.scalar (p.tagOr .null) [])

/-- A node, or nothing where a token of a kind comes next. -/
def nodeUnless (handles : Handles) (ends : Token → Bool) :
    (fuel : Nat) → Position → Reader → Except Fault (Nat × Reader)
  | 0, _, _ => .error .malformed
  | fuel + 1, position, s =>
    if ends s.peek then .ok (s.add none .nothing) else node handles fuel position s

/-- The items of a block list. -/
def blockItems (handles : Handles) : (fuel : Nat) → Reader → Except Fault (List Nat × Reader)
  | 0, _ => .error .malformed
  | fuel + 1, s =>
    match s.peek with
    | .blockItem => do
      let (n, s) ← nodeUnless handles endsItem fuel .block s.next
      let (items, s) ← blockItems handles fuel s
      pure (n :: items, s)
    | .blockEnd => .ok ([], s.next)
    | _ => s.unexpected

/-- The items of a list whose dashes stand where the keys around them do. -/
def flushItems (handles : Handles) : (fuel : Nat) → Reader → Except Fault (List Nat × Reader)
  | 0, _ => .error .malformed
  | fuel + 1, s =>
    match s.peek with
    | .blockItem => do
      let (n, s) ← nodeUnless handles (fun t => endsItem t || endsMapPart t) fuel .block s.next
      let (items, s) ← flushItems handles fuel s
      pure (n :: items, s)
    | .broken cause => .error cause
    | _ => .ok ([], s)

/-- The value of an entry, which may be left out together with its colon. -/
def entryValue (handles : Handles) (ends : Token → Bool) :
    (fuel : Nat) → Position → Reader → Except Fault (Nat × Reader)
  | 0, _, _ => .error .malformed
  | fuel + 1, position, s =>
    match s.peek with
    | .value => nodeUnless handles ends fuel position s.next
    | .broken cause => .error cause
    | _ => .ok (s.add none .nothing)

/-- The entries of a block map. -/
def blockEntries (handles : Handles) :
    (fuel : Nat) → Reader → Except Fault (List (Nat × Nat) × Reader)
  | 0, _ => .error .malformed
  | fuel + 1, s =>
    match s.peek with
    | .key => do
      let (k, s) ← nodeUnless handles endsMapPart fuel .mapPart s.next
      let (v, s) ← entryValue handles endsMapPart fuel .mapPart s
      let (entries, s) ← blockEntries handles fuel s
      pure ((k, v) :: entries, s)
    | .blockEnd => .ok ([], s.next)
    | _ => s.unexpected

/-- The items of a flow list. An item may be a single entry of a map. -/
def flowItems (handles : Handles) :
    (fuel : Nat) → (first : Bool) → Reader → Except Fault (List Nat × Reader)
  | 0, _, _ => .error .malformed
  | fuel + 1, first, s =>
    match first, s.peek with
    | _, .flowItemsEnd => .ok ([], s.next)
    | false, .flowSeparator => flowItem handles fuel s.next
    | true, _ => flowItem handles fuel s
    | _, _ => s.unexpected

/-- An item of a flow list and those after it, or the end of the list. -/
def flowItem (handles : Handles) : (fuel : Nat) → Reader → Except Fault (List Nat × Reader)
  | 0, _ => .error .malformed
  | fuel + 1, s =>
    match s.peek with
    | .flowItemsEnd => .ok ([], s.next)
    | .key => do
      let (entry, s) := s.next.add none .nothing
      let (k, s) ← nodeUnless handles (fun t => t = .value || endsPart t) fuel .flow s
      let (v, s) ← entryValue handles endsPart fuel .flow s
      let (items, s) ← flowItems handles fuel false (s.put entry (.map .map [(k, v)]))
      pure (entry :: items, s)
    | _ => do
      let (n, s) ← node handles fuel .flow s
      let (items, s) ← flowItems handles fuel false s
      pure (n :: items, s)
where
  endsPart (t : Token) : Bool := t = .flowSeparator || t = .flowItemsEnd

/-- The entries of a flow map. A key without a colon has no value. -/
def flowEntries (handles : Handles) :
    (fuel : Nat) → (first : Bool) → Reader → Except Fault (List (Nat × Nat) × Reader)
  | 0, _, _ => .error .malformed
  | fuel + 1, first, s =>
    match first, s.peek with
    | _, .flowEntriesEnd => .ok ([], s.next)
    | false, .flowSeparator => flowEntry handles fuel s.next
    | true, _ => flowEntry handles fuel s
    | _, _ => s.unexpected

/-- An entry of a flow map and those after it, or the end of the map. -/
def flowEntry (handles : Handles) :
    (fuel : Nat) → Reader → Except Fault (List (Nat × Nat) × Reader)
  | 0, _ => .error .malformed
  | fuel + 1, s =>
    match s.peek with
    | .flowEntriesEnd => .ok ([], s.next)
    | .key => do
      let (k, s) ← nodeUnless handles (fun t => t = .value || endsPart t) fuel .flow s.next
      let (v, s) ← entryValue handles endsPart fuel .flow s
      let (entries, s) ← flowEntries handles fuel false s
      pure ((k, v) :: entries, s)
    | _ => do
      let (n, s) ← node handles fuel .flow s
      let (v, s) := s.add none .nothing
      let (entries, s) ← flowEntries handles fuel false s
      pure ((n, v) :: entries, s)
where
  endsPart (t : Token) : Bool := t = .flowSeparator || t = .flowEntriesEnd
end

/-- The handles of tags that every document knows. -/
def usualHandles : Handles := [(['!'], ['!']), (['!', '!'], Tag.common)]

/-- The directives in front of a document: the handles that they give, and whether one of them gives
a version. -/
def directives : (version : Bool) → Handles → List Token → Except Fault (Handles × List Token)
  | version, handles, .directive d :: rest =>
    match d with
    | .version major =>
      if version || major ≠ 1 then .error .malformed else directives true handles rest
    | .handle name expansion =>
      if (handles.lookup name).isSome then .error .malformed
      else directives version ((name, expansion) :: handles) rest
    | .other => directives version handles rest
  | _, handles, tokens => .ok (handles, tokens)

/-- The root of a document whose start is marked. -/
def markedRoot (fuel : Nat) (tokens : List Token) : Except Fault (Nat × Reader) := do
  let (handles, tokens) ← directives false [] tokens
  let s := Reader.start tokens
  match s.peek with
  | .documentStart =>
    match s.next.peek with
    | .directive _ | .documentStart | .documentEnd | .streamEnd =>
      return s.next.add none .nothing
    | _ => node (handles ++ usualHandles) fuel .block s.next
  | _ => s.unexpected

/-- The nodes of a document that has been read, if nothing follows it. Directives for a further
document are read before that is missed. -/
def finish (root : Nat) (s : Reader) : Except Fault Graph := do
  match s.tokens.dropWhile fun t => t = .documentEnd with
  | [.streamEnd] => return ⟨s.nodes, root⟩
  | tokens =>
    let (_, rest) ← directives false [] tokens
    (Reader.start rest).unexpected

/-- The nodes of the only document of a text; nothing where the text holds none. -/
def ofTokens (tokens : List Token) : Except Fault (Option Graph) := do
  let fuel := 4 * tokens.length + 8
  match tokens with
  | [.streamEnd] => return none
  | .directive _ :: _ | .documentStart :: _ =>
    let (root, s) ← markedRoot fuel tokens
    some <$> finish root s
  | _ =>
    let (root, s) ← node usualHandles fuel .block (.start tokens)
    some <$> finish root s

end Graph
end CircuitSketch.Yaml
