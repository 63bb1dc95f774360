/-!
# Bit algebras

Circuits are evaluated over any kind of bit that has the Boolean operations: plain truth values, or
conditions on the holes of a sketch. `constant?` tells when a bit does not depend on anything.
-/
namespace CircuitSketch

/-- Bits with Boolean operations. -/
class BitAlgebra (β : Type) where
  const : Bool → β
  constant? : β → Option Bool
  not : β → β
  and : β → β → β
  or : β → β → β
  xor : β → β → β
  /-- The second bit where the first is one, and the third where it is zero. -/
  ite : β → β → β → β

/-- Truth values are bits that are always constant. -/
instance : BitAlgebra Bool where
  const b := b
  constant? b := some b
  not := Bool.not
  and := Bool.and
  or := Bool.or
  xor := Bool.xor
  ite c t e := if c then t else e

namespace BitAlgebra

variable {β : Type} [BitAlgebra β]

/-- The constant bits of a list, if all of them are constant. -/
def constants? (bits : List β) : Option (List Bool) := bits.mapM constant?

/-- Constant bits. -/
def constants (bits : List Bool) : List β := bits.map const

/-- Bit by bit, the second word where the condition holds and the first where it does not. -/
def select (condition : β) (ifZero ifOne : List β) : List β :=
  List.zipWith (fun x y => ite condition y x) ifZero ifOne

end BitAlgebra
end CircuitSketch
