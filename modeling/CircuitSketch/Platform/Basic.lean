import CircuitSketch.Fraction.Shortest

/-!
# Platforms

What a target platform offers: the sizes of its lookup tables, how it builds multiplexers, and its
carry chain. A platform without multiplexers or without a carry chain has none there.
-/
namespace CircuitSketch

/-- A number of things as it was written: with a point, as in `4.0`, or without one. Both are the
same number, but their texts differ, and things can only be counted up to a number without a
point. -/
structure Count where
  value : Nat
  pointed : Bool
deriving DecidableEq, Repr

namespace Count

/-- A number without a point. -/
def plain (n : Nat) : Count := ⟨n, false⟩

/-- A number as it was written. -/
def text (c : Count) : String :=
  if c.pointed then (Fraction.ofNat c.value).text else toString c.value

end Count

/-- The number of inputs of a lookup table. -/
structure LutSize where
  count : Count
  one_le : 1 ≤ count.value
  le_eight : count.value ≤ 8

namespace LutSize

/-- The number of inputs. -/
def value (s : LutSize) : Nat := s.count.value

end LutSize

/-- How multiplexers are built: from a lookup table that has to be programmed, or as fixed
hardware. -/
inductive MuxStyle
  | lut
  | native
deriving DecidableEq, Repr

namespace MuxStyle

/-- The name of a style. -/
def name : MuxStyle → String
  | lut => "lut"
  | native => "native"

end MuxStyle

/-- How a carry chain computes: as an adder, or by multiplexers and exclusive ors. -/
inductive CarryStyle
  | adder
  | muxXor
deriving DecidableEq, Repr

namespace CarryStyle

/-- The name of a style. -/
def name : CarryStyle → String
  | adder => "adder"
  | muxXor => "mux_xor"

/-- The module that is placed for one block of a chain. -/
def module : CarryStyle → String
  | adder => "CARRY_ADD"
  | muxXor => "CARRY_MUXXOR"

end CarryStyle

/-- A carry chain, made of blocks of at most `chunk` positions. -/
structure CarryUnit where
  style : CarryStyle
  chunk : Count
  chunk_pos : 0 < chunk.value := by decide

/-- A target platform. -/
structure Platform where
  name : String
  lutSizes : List LutSize
  mux : Option MuxStyle
  carry : Option CarryUnit
  lutSizes_ne_nil : lutSizes ≠ [] := by decide

namespace Platform

/-- The sizes of the lookup tables. -/
def sizes (p : Platform) : List Nat := p.lutSizes.map LutSize.value

/-- The size of the largest lookup table. -/
def maxLut (p : Platform) : Nat := p.sizes.foldl max 0

/-- A size of lookup tables as it was written. -/
def written (p : Platform) (size : Nat) : Count :=
  ⟨size, p.lutSizes.any fun s => s.count.pointed && s.value == size⟩

/-- The size of the largest lookup table as it was written. -/
def largest (p : Platform) : Count := p.written p.maxLut

/-- Lookup tables of every size from `first` to `last`. -/
def lutRange (first last : Nat) : List LutSize :=
  ((List.range' first (last + 1 - first)).filterMap fun n =>
    if h : 1 ≤ n ∧ n ≤ 8 then some ⟨.plain n, h.1, h.2⟩ else none)

/-- A fabric of lookup tables with two to six inputs, which also build the multiplexers, and an
adding carry chain. -/
def generic : Platform where
  name := "generic"
  lutSizes := lutRange 2 6
  mux := some .lut
  carry := some { style := .adder, chunk := .plain 8 }

/-- A fabric of lookup tables with four inputs and carry cells of two positions. -/
def latticeEcp5 : Platform where
  name := "lattice_ecp5"
  lutSizes := lutRange 4 4
  mux := some .lut
  carry := some { style := .adder, chunk := .plain 2 }

/-- A fabric with hard wide multiplexers and a carry chain of multiplexers and exclusive ors. -/
def xilinxUltrascale : Platform where
  name := "xilinx_ultrascale"
  lutSizes := lutRange 1 6
  mux := some .native
  carry := some { style := .muxXor, chunk := .plain 8 }

/-- The platforms known by name, in the order of their names. -/
def known : List Platform := [generic, latticeEcp5, xilinxUltrascale]

/-- The names of the known platforms. -/
def knownNames : List String := known.map name

/-- Follows the steps of a path through nested directories, of which only the ones from the
outermost down to the one of the known platforms are known. `inner` are the directories still to be
entered on the way there, and `outer` those that were entered, the last one first. The result is
`inner` at the end; a path that leads elsewhere has none. -/
def follow (inner outer : List String) : List String → Option (List String)
  | [] => some inner
  | step :: rest =>
    if step = "" ∨ step = "." then follow inner outer rest
    else if step = ".." then
      match outer with
      | [] => none
      | d :: outer => follow (d :: inner) outer rest
    else
      match inner with
      | [] => none
      | d :: inner => if step = d then follow inner (d :: outer) rest else none

/-- The known platform of a name, which may be a path from the directory of the known platforms back
into it. `home` are the names of that directory and of those around it, the outermost first. -/
def named? (home : List String) (name : String) : Option Platform :=
  match (name.splitOn "/").reverse with
  | [] => none
  | last :: leading =>
    let steps := leading.reverse
    if steps.head? ≠ some "" ∧ follow [] home.reverse steps = some [] then
      known.find? fun p => p.name == last
    else none

end Platform
end CircuitSketch
