import CircuitSketch.Bits.Power
import CircuitSketch.Expr.Basic

/-!
# Building expressions

A build hands out tags from a counter, so a node that it makes differs from every node made before.
The constructors here give a node the shape its operands call for and check nothing; they serve
callers that know their operands.
-/
namespace CircuitSketch

/-- A computation that makes nodes and may fail with `ε`. The state is the next free tag. -/
abbrev Build (ε : Type) : Type → Type := StateT Nat (Except ε)

namespace Build

variable {ε : Type}

/-- A tag given to no node yet. -/
def fresh : Build ε Nat := fun next => .ok (next, next + 1)

/-- Gives up with an error. -/
def fail {α : Type} (error : ε) : Build ε α := fun _ => .error error

/-- A new node of the given operation. -/
def node (op : Op) (shape : Shape) (args : List Expr) : Build ε Expr :=
  fun next => .ok (.node next op shape args, next + 1)

/-- A new decision. -/
def newHole (width : Nat) (name : Option String) : Build ε Hole :=
  fun next => .ok (⟨next, width, name⟩, next + 1)

/-- Several new decisions of one bit. -/
def newBits : Nat → Build ε (List Hole)
  | 0 => pure []
  | n + 1 => do
    let h ← newHole 1 none
    let rest ← newBits n
    pure (h :: rest)

/-- A constant: the value is kept modulo `twoPow width`. -/
def const (width : Nat) (value : Int) : Build ε Expr :=
  node (.const width (value % twoPow width).toNat) (.word width) []

/-- Bits `lo` to `hi` of a word. -/
def extract (lo hi : Nat) (e : Expr) : Build ε Expr :=
  node (.extract lo hi) (.word (hi + 1 - lo)) [e]

/-- Bits `lo` to `hi` of a word; the word itself when these are all of its bits. -/
def slice (e : Expr) (lo hi : Nat) : Build ε Expr :=
  if lo = 0 ∧ hi + 1 = e.width then pure e else extract lo hi e

/-- One bit of a word; the word itself when it has only one. -/
def bit (e : Expr) (i : Nat) : Build ε Expr :=
  if e.width = 1 ∧ i = 0 then pure e else extract i i e

/-- Every bit of a word, least significant first. -/
def bits (e : Expr) : Build ε (List Expr) :=
  (List.range e.width).mapM (bit e)

/-- The width of words joined. -/
def totalWidth (parts : List Expr) : Nat := parts.foldr (fun e total => e.width + total) 0

/-- Words joined, the first one on top. -/
def concat (parts : List Expr) : Build ε Expr :=
  node .concat (.word (totalWidth parts)) parts

/-- Words joined, the last one on top; a single word stays itself. -/
def concatBits : List Expr → Build ε Expr
  | [e] => pure e
  | es => concat es.reverse

/-- A word with zeros added on top. -/
def zeroExtend (e : Expr) (width : Nat) : Build ε Expr :=
  node (.zeroExtend width) (.word width) [e]

/-- A word with copies of its top bit added. -/
def dupExtend (e : Expr) (width : Nat) : Build ε Expr :=
  node (.dupExtend width) (.word width) [e]

/-- A list of words of one width. -/
def list (items : List Expr) : Build ε Expr :=
  node .list (.list ((items.map Expr.width).headD 0) items.length) items

/-- The item of a list that a word selects. -/
def lookup (items index : Expr) : Build ε Expr :=
  node .lookup (.word items.width) [items, index]

/-- A placed primitive. -/
def primitive (module : String) (ports : List (String × Expr)) (outputs : List (String × Nat)) :
    Build ε Expr :=
  node (.primitive module (ports.map (·.1)) outputs) (.group outputs) (ports.map (·.2))

/-- A named word of width `width`. -/
def output (e : Expr) (key : String) (width : Nat) : Build ε Expr :=
  node (.output key) (.word width) [e]

/-- A choice settled by a given hole. -/
def chooseBy (a b : Expr) (selector : Hole) : Build ε Expr :=
  fun next => .ok (.choose next a.width a b selector, next + 1)

/-- A choice settled by a new hole. -/
def choose (a b : Expr) : Build ε Expr := do
  let selector ← newHole 1 none
  chooseBy a b selector

end Build
end CircuitSketch
