/-!
# Bytes as letters

Bytes may be written with sixty-four letters, digits and signs, each of which stands for six bits.
Equals signs fill up the last group of four and end the text. All other characters count for
nothing.
-/
namespace CircuitSketch.Text

/-- The six bits that a character stands for. -/
def sextet? (c : Char) : Option Nat :=
  if 'A' ≤ c ∧ c ≤ 'Z' then some (c.toNat - 'A'.toNat)
  else if 'a' ≤ c ∧ c ≤ 'z' then some (c.toNat - 'a'.toNat + 26)
  else if '0' ≤ c ∧ c ≤ '9' then some (c.toNat - '0'.toNat + 52)
  else if c = '+' then some 62
  else if c = '/' then some 63
  else none

/-- The bytes of groups of four; an incomplete group at the end has a byte less than letters. -/
def groupBytes : List Nat → List Nat
  | a :: b :: c :: d :: rest =>
    (4 * a + b / 16) :: (b % 16 * 16 + c / 4) :: (c % 4 * 64 + d) :: groupBytes rest
  | [a, b, c] => [4 * a + b / 16, b % 16 * 16 + c / 4]
  | [a, b] => [4 * a + b / 16]
  | _ => []

/-- The letters up to the end of the text, after those in `acc`, which are the other way round.
`place` of the letters are in an unfinished group, and `signs` equals signs came after them. A text
that is not ended by equals signs has to end with a finished group. -/
def sextets? (acc : List Nat) (place signs : Nat) : List Char → Option (List Nat)
  | [] => if place = 0 then some acc.reverse else none
  | c :: rest =>
    if c = '=' then
      if place < 2 then sextets? acc place signs rest
      else if 4 ≤ place + signs + 1 then some acc.reverse
      else sextets? acc place (signs + 1) rest
    else
      match sextet? c with
      | some n => sextets? (n :: acc) ((place + 1) % 4) 0 rest
      | none => sextets? acc place signs rest

/-- The bytes that a text stands for. -/
def lettersToBytes? (cs : List Char) : Option (List Nat) := (sextets? [] 0 0 cs).map groupBytes

end CircuitSketch.Text
