import CircuitSketch.Yaml.Cursor
import CircuitSketch.Yaml.Fault

/-!
# Quoted scalars

Between single quotes every character stands for itself, and a quote is written twice. Between
double quotes a backslash starts an escape, which may stand for any code point. In both, line breaks
are folded together with the blanks around them, and no marker of a document's edge can start a
line.

The `fuel` of a reader bounds its steps; one more than the number of characters is enough.
-/
namespace CircuitSketch.Yaml

open Text (digits?)

/-- The characters that a backslash and one letter stand for. -/
def escapes : List (Char × Char) :=
  [('0', '\x00'), ('a', '\x07'), ('b', '\x08'), ('t', '\x09'), ('\t', '\x09'), ('n', '\x0a'),
    ('v', '\x0b'), ('f', '\x0c'), ('r', '\x0d'), ('e', '\x1b'), (' ', ' '), ('"', '"'),
    ('\\', '\\'), ('/', '/'), ('N', '\u0085'), ('_', '\u00a0'), ('L', '\u2028'), ('P', '\u2029')]

/-- The number of hexadecimal digits after a backslash and one letter. -/
def hexLengths : List (Char × Nat) := [('x', 2), ('u', 4), ('U', 8)]

/-- Line breaks inside a quoted scalar, with the blanks between them left out. -/
def quotedBreaks : (fuel : Nat) → Cursor → Except Fault (List Char × Cursor)
  | 0, p => .ok ([], p)
  | fuel + 1, p =>
    if isEdge p.rest then .error .malformed
    else
      let p := p.skipWhile isBlank
      match p.lineBreak? with
      | none => .ok ([], p)
      | some (b, p) => do
        let (bs, p) ← quotedBreaks fuel p
        pure (b :: bs, p)

/-- Blanks inside a quoted scalar; those around line breaks do not count. -/
def quotedGap (fuel : Nat) (p : Cursor) : Except Fault (List Char × Cursor) :=
  let (blanks, p) := p.takeWhile isBlank
  match p.lineBreak? with
  | none => .ok (blanks, p)
  | some (b, p) => do
    let (bs, p) ← quotedBreaks fuel p
    pure (folded b bs, p)

/-- The number of code points. -/
def pointCount : Nat := 0x110000

/-- What a backslash in front of a place stands for. -/
def escape (fuel : Nat) (p : Cursor) : Except Fault (List Nat × Cursor) :=
  match p.rest with
  | [] => .error .malformed
  | c :: _ =>
    match escapes.lookup c, hexLengths.lookup c with
    | some d, _ => .ok ([d.toNat], p.next)
    | none, some n =>
      let code := p.next.rest.take n
      match if code.length = n then digits? 16 code else none with
      | none => .error .malformed
      | some v => if v < pointCount then .ok ([v], p.next.skip n) else .error .noCharacter
    | none, none =>
      if isBreak c then (quotedBreaks fuel p.next).map fun r => (r.1.map Char.toNat, r.2)
      else .error .malformed

/-- The contents of a quoted scalar up to its closing quote, after those that `acc` holds the other
way round. -/
def quotedFrom (quote : Char) : (fuel : Nat) → (acc : List Nat) → Cursor →
    Except Fault (List Nat × Cursor)
  | 0, _, _ => .error .malformed
  | fuel + 1, acc, p =>
    match p.rest with
    | [] => .error .malformed
    | c :: rest =>
      if isBlank c || isBreak c then do
        let (gap, p) ← quotedGap fuel p
        quotedFrom quote fuel ((gap.map Char.toNat).reverse ++ acc) p
      else if c = quote then
        if quote = '\x27' && rest.head? == some quote then
          quotedFrom quote fuel (c.toNat :: acc) (p.skip 2)
        else .ok (acc.reverse, p.next)
      else if quote = '"' && c = '\\' then do
        let (meant, p) ← escape fuel p.next
        quotedFrom quote fuel (meant.reverse ++ acc) p
      else quotedFrom quote fuel (c.toNat :: acc) p.next

/-- The contents of the quoted scalar at a place, which starts with its quote. -/
def quotedScalar (quote : Char) (p : Cursor) : Except Fault (List Nat × Cursor) :=
  quotedFrom quote (p.rest.length + 1) [] p.next

end CircuitSketch.Yaml
