/-!
# Places in a document

A document is read from left to right. A place in it knows what is left to be read, and also its
line and its column, because line breaks and indentation have a meaning.
-/
namespace CircuitSketch.Yaml

/-- A place in a text: the characters after it, the number of those before it, and its line and
column. -/
structure Cursor where
  rest : List Char
  index : Nat
  line : Nat
  column : Nat

/-- Characters that end a line. -/
def isBreak (c : Char) : Bool :=
  c = '\n' || c = '\u0085' || c = '\u2028' || c = '\u2029'

/-- Characters inside a line that are not seen. -/
def isBlank (c : Char) : Bool := c = ' ' || c = '\t'

/-- The mark in front of a text that tells how it is encoded. It takes no column. -/
def encodingMark : Char := '\ufeff'

/-- Whether a word ends in front of some characters: at a blank, a line break or the end. -/
def endsWord : List Char → Bool
  | [] => true
  | c :: _ => isBlank c || isBreak c

/-- Whether a field ends in front of some characters. A tab does not end it. -/
def endsField : List Char → Bool
  | [] => true
  | c :: _ => c = ' ' || isBreak c

/-- Whether a word of three times one character comes next. -/
def isMarker (c : Char) (cs : List Char) : Bool :=
  cs.take 3 == [c, c, c] && endsWord (cs.drop 3)

/-- Whether the beginning or the end of a document is marked here. -/
def isEdge (cs : List Char) : Bool := isMarker '-' cs || isMarker '.' cs

namespace Cursor

/-- The first place of a text. -/
def start (cs : List Char) : Cursor := ⟨cs, 0, 0, 0⟩

/-- The place after one character. -/
def next (p : Cursor) : Cursor :=
  match p.rest with
  | [] => p
  | c :: rest =>
    if isBreak c then ⟨rest, p.index + 1, p.line + 1, 0⟩
    else ⟨rest, p.index + 1, p.line, if c = encodingMark then p.column else p.column + 1⟩

/-- The place after some characters. -/
def skip : Nat → Cursor → Cursor
  | 0, p => p
  | n + 1, p => skip n p.next

/-- The next character. -/
def peek? (p : Cursor) : Option Char := p.rest.head?

/-- Whether a certain character comes next. -/
def sees (p : Cursor) (c : Char) : Bool := p.peek? == some c

/-- The next characters of a kind, and the place after them. -/
def takeWhile (f : Char → Bool) (p : Cursor) : List Char × Cursor :=
  let taken := p.rest.takeWhile f
  (taken, p.skip taken.length)

/-- The place after the next characters of a kind. -/
def skipWhile (f : Char → Bool) (p : Cursor) : Cursor := (p.takeWhile f).2

/-- The line break that comes next, and the place after it. Separators of lines and of paragraphs
stand for themselves, every other break for a line feed. -/
def lineBreak? (p : Cursor) : Option (Char × Cursor) :=
  match p.rest with
  | [] => none
  | c :: _ =>
    if c = '\u2028' || c = '\u2029' then some (c, p.next)
    else if isBreak c then some ('\n', p.next)
    else none

/-- The place after blanks and a comment. -/
def skipComment (p : Cursor) : Cursor :=
  let p := p.skipWhile (· = ' ')
  if p.sees '#' then p.skipWhile fun c => !isBreak c else p

/-- The place after the rest of a line, which may hold a comment only. -/
def endLine? (p : Cursor) : Option Cursor :=
  let p := p.skipComment
  match p.lineBreak? with
  | some (_, p) => some p
  | none => if p.rest.isEmpty then some p else none

end Cursor

/-- What line breaks inside a scalar stand for: a single line feed for a blank, further ones for
themselves. -/
def folded (first : Char) (more : List Char) : List Char :=
  if first ≠ '\n' then first :: more else if more.isEmpty then [' '] else more

end CircuitSketch.Yaml
