import CircuitSketch.Bits.Algebra
import CircuitSketch.Bits.Power
import CircuitSketch.Text.Quoted

/-!
# Platform primitives

What the primitives of a platform compute, over any bit algebra. A primitive reads words wired to
named ports and produces named words. It fails when a port that it reads is not wired, when a port
of which it reads one bit has none, or when a table is empty or has no power of two of entries.
Besides the standard primitives a platform may have its own, given as networks of gates.
-/
namespace CircuitSketch

/-- Why a primitive cannot run. -/
inductive PrimitiveError
  | missingPort (name : String)
  | emptyPort
  | emptyTable
  | tableSize (size : Nat)
deriving DecidableEq, Repr

/-- A bit that gates compute from the bits of ports. -/
inductive Gate
  | const (b : Bool)
  | wire (port : String) (position : Nat)
  | not (g : Gate)
  | and (g h : Gate)
  | or (g h : Gate)
  | xor (g h : Gate)
  | ite (c t e : Gate)

/-- Gates for the bits of every output, given the names and the widths of the wired ports. -/
abbrev Network := List (String × Nat) → Except PrimitiveError (List (String × List Gate))

/-- The behaviours of primitives: a lookup table, a carry block that adds, a carry block made of
multiplexers and exclusive ors, and whatever else gates compute. -/
inductive Primitive
  | lut
  | carryAdd
  | carryMuxXor
  | network (gates : Network)

/-- The message of a primitive that cannot run. -/
def PrimitiveError.message : PrimitiveError → String
  | missingPort name => Text.quoted name
  | emptyPort => ""
  | emptyTable => "negative shift count"
  | tableSize size => s!"LUT INIT must have a power-of-two width, got {size}"

/-- A choice of primitives by module name. -/
abbrev ModuleTable := String → Option Primitive

namespace Primitive

variable {β : Type} [BitAlgebra β]

/-- The word wired to a port; the last wire to a port counts. -/
def port (ports : List (String × List β)) (name : String) : Except PrimitiveError (List β) :=
  match ports.reverse.lookup name with
  | some bits => .ok bits
  | none => .error (.missingPort name)

/-- The lowest bit of the word wired to a port. -/
def portBit (ports : List (String × List β)) (name : String) : Except PrimitiveError β := do
  match ← port ports name with
  | b :: _ => .ok b
  | [] => .error .emptyPort

/-- Halves a table: of each neighbouring pair of entries the one that the selecting bit picks. -/
def halve (select : β) : List β → List β
  | low :: high :: rest => BitAlgebra.ite select high low :: halve select rest
  | _ => []

/-- The entries left of a table after reading `count` inputs from number `index` on. -/
def lutRead (ports : List (String × List β)) : Nat → Nat → List β → Except PrimitiveError (List β)
  | 0, _, table => .ok table
  | count + 1, index, table => do
    let select ← portBit ports s!"I{index}"
    lutRead ports count (index + 1) (halve select table)

/-- A lookup table: `INIT` holds an entry for every value of the inputs, `I0` lowest. -/
def runLut (ports : List (String × List β)) :
    Except PrimitiveError (List (String × List β)) := do
  let table ← port ports "INIT"
  let inputs := Nat.log2 table.length
  if table.isEmpty then .error .emptyTable
  else if table.length = twoPow inputs then
    let entries ← lutRead ports inputs 0 table
    .ok [("O", entries)]
  else .error (.tableSize table.length)

/-- An adding carry chain: the sum bits and the carry out. -/
def addChain (carry : β) : List (β × β) → List β × β
  | [] => ([], carry)
  | (d, s) :: rest =>
    let propagate := BitAlgebra.xor d s
    let next := BitAlgebra.or (BitAlgebra.and d s) (BitAlgebra.and carry propagate)
    let (sums, out) := addChain next rest
    (BitAlgebra.xor propagate carry :: sums, out)

/-- A carry chain in which each position passes the carry on or replaces it by its data bit. -/
def muxChain (carry : β) : List (β × β) → List β × β
  | [] => ([], carry)
  | (d, s) :: rest =>
    let (sums, out) := muxChain (BitAlgebra.ite s carry d) rest
    (BitAlgebra.xor s carry :: sums, out)

/-- Runs a carry chain on the ports `CI`, `DI` and `S`. -/
def runChain (chain : β → List (β × β) → List β × β) (ports : List (String × List β)) :
    Except PrimitiveError (List (String × List β)) := do
  let carry ← portBit ports "CI"
  let di ← port ports "DI"
  let s ← port ports "S"
  let (sums, out) := chain carry (di.zip s)
  .ok [("O", sums), ("CO", [out])]

/-- The bit that a gate computes; a wire reads one bit of a port. -/
def gateBit (ports : List (String × List β)) : Gate → Except PrimitiveError β
  | .const b => .ok (BitAlgebra.const b)
  | .wire name position => do
    match (← port ports name)[position]? with
    | some b => .ok b
    | none => .error .emptyPort
  | .not g => do
    let x ← gateBit ports g
    .ok (BitAlgebra.not x)
  | .and g h => do
    let x ← gateBit ports g
    let y ← gateBit ports h
    .ok (BitAlgebra.and x y)
  | .or g h => do
    let x ← gateBit ports g
    let y ← gateBit ports h
    .ok (BitAlgebra.or x y)
  | .xor g h => do
    let x ← gateBit ports g
    let y ← gateBit ports h
    .ok (BitAlgebra.xor x y)
  | .ite c t e => do
    let s ← gateBit ports c
    let x ← gateBit ports t
    let y ← gateBit ports e
    .ok (BitAlgebra.ite s x y)

/-- The words that lists of gates compute. -/
def gateWords (ports : List (String × List β)) :
    List (String × List Gate) → Except PrimitiveError (List (String × List β))
  | [] => .ok []
  | (name, gates) :: rest => do
    let bits ← gates.mapM (gateBit ports)
    let fields ← gateWords ports rest
    .ok ((name, bits) :: fields)

/-- Runs a network of gates. -/
def runNetwork (gates : Network) (ports : List (String × List β)) :
    Except PrimitiveError (List (String × List β)) := do
  let outputs ← gates (ports.map fun p => (p.1, p.2.length))
  gateWords ports outputs

/-- What a primitive produces from its ports. -/
def run (p : Primitive) (ports : List (String × List β)) :
    Except PrimitiveError (List (String × List β)) :=
  match p with
  | lut => runLut ports
  | carryAdd => runChain addChain ports
  | carryMuxXor => runChain muxChain ports
  | network gates => runNetwork gates ports

/-- The largest lookup table among the standard primitives. -/
def largestLut : Nat := 8

/-- The standard primitives by module name. -/
def standardModules : List (String × Primitive) :=
  [("CARRY_ADD", carryAdd), ("CARRY_MUXXOR", carryMuxXor)] ++
    (List.range largestLut).map fun k => (s!"LUT{k + 1}", lut)

/-- The standard choice of primitives. -/
def standard : ModuleTable := fun name => standardModules.lookup name

end Primitive
end CircuitSketch
