import CircuitSketch.Yaml.Cursor
import CircuitSketch.Yaml.Fault

/-!
# Plain and block scalars

A plain scalar ends at a comment, at a colon that makes it a key, and inside a flow collection at
the characters that separate its parts. It goes on over lines that are indented deeply enough, and
its line breaks are folded.

A block scalar consists of indented lines, whose breaks are kept or folded. The line that opens it
may fix the indentation and tell what becomes of the breaks at the end.

The `fuel` of a reader bounds its steps; one more than the number of characters is enough.
-/
namespace CircuitSketch.Yaml

/-- Characters that separate the parts of flow collections. -/
def isFlowMark (c : Char) : Bool :=
  c = ',' || c = '[' || c = ']' || c = '\x7b' || c = '\x7d'

/-- Whether a colon in front of some characters makes what is before it a key. -/
def endsKey (inFlow : Bool) (cs : List Char) : Bool :=
  endsWord cs || (inFlow && cs.head?.any isFlowMark)

/-- The characters of a plain scalar up to the next gap. -/
def plainWord (inFlow : Bool) : List Char → List Char
  | [] => []
  | c :: rest =>
    if endsWord (c :: rest) || (c = ':' && endsKey inFlow rest) ||
        (inFlow && (c = '?' || isFlowMark c)) then []
    else c :: plainWord inFlow rest

/-- Whether a plain scalar may start with some characters. -/
def startsPlain (inFlow : Bool) : List Char → Bool
  | [] => false
  | c :: rest =>
    if c = '-' || (!inFlow && (c = '?' || c = ':')) then !endsWord rest
    else
      !endsWord (c :: rest) && !isFlowMark c &&
        !(['?', ':', '#', '&', '*', '!', '|', '>', '\x27', '"', '%', '@', '\x60'].contains c)

/-- Line breaks inside a plain scalar, with the blanks between them left out; nothing if an edge of
the document comes next. -/
def plainBreaks : (fuel : Nat) → Cursor → Option (List Char) × Cursor
  | 0, p => (some [], p)
  | fuel + 1, p =>
    let p := p.skipWhile (· = ' ')
    match p.lineBreak? with
    | none => (some [], p)
    | some (b, p) =>
      if isEdge p.rest then (none, p)
      else
        let (bs, p) := plainBreaks fuel p
        (bs.map (b :: ·), p)

/-- A gap in a plain scalar: what it stands for, and whether it goes over the end of a line. -/
def plainGap (fuel : Nat) (p : Cursor) : List Char × Bool × Cursor :=
  let (blanks, p) := p.takeWhile (· = ' ')
  match p.lineBreak? with
  | none => (blanks, false, p)
  | some (b, p) =>
    if isEdge p.rest then ([], true, p)
    else
      match plainBreaks fuel p with
      | (some bs, p) => (folded b bs, true, p)
      | (none, p) => ([], true, p)

/-- The contents of a plain scalar, after those that `acc` holds the other way round, and whether it
is followed by a gap that goes over the end of a line. -/
def plainFrom (inFlow : Bool) (indent : Int) : (fuel : Nat) → (acc gap : List Char) →
    (crossed : Bool) → Cursor → List Char × Bool × Cursor
  | 0, acc, _, crossed, p => (acc.reverse, crossed, p)
  | fuel + 1, acc, gap, crossed, p =>
    let word := if p.sees '#' then [] else plainWord inFlow p.rest
    if word.isEmpty then (acc.reverse, crossed, p)
    else
      let acc := word.reverse ++ gap.reverse ++ acc
      let (gap, crossed, p) := plainGap fuel (p.skip word.length)
      if gap.isEmpty || p.sees '#' || (!inFlow && decide ((p.column : Int) < indent)) then
        (acc.reverse, crossed, p)
      else plainFrom inFlow indent fuel acc gap crossed p

/-- The plain scalar at a place, which goes on over lines indented by `indent` at least. -/
def plainScalar (inFlow : Bool) (indent : Int) (p : Cursor) : List Char × Bool × Cursor :=
  plainFrom inFlow indent (p.rest.length + 1) [] [] false p

/-- What becomes of the line breaks at the end of a block scalar. -/
inductive Chomping
  | clip
  | strip
  | keep
deriving DecidableEq, Repr

/-- What the line that opens a block scalar says about its end. -/
def chomping? (p : Cursor) : Option (Chomping × Cursor) :=
  match p.peek? with
  | some '+' => some (.keep, p.next)
  | some '-' => some (.strip, p.next)
  | _ => none

/-- What the line that opens a block scalar says about its indentation, which is not zero. -/
def increment? (p : Cursor) : Except Fault (Option (Nat × Cursor)) :=
  match p.peek? with
  | some c =>
    if c = '0' then .error .malformed
    else if c.isDigit then .ok (some (c.toNat - '0'.toNat, p.next))
    else .ok none
  | none => .ok none

/-- The indentation and the chomping that the opening line gives, in any order. -/
def blockHeader (p : Cursor) : Except Fault (Option Nat × Chomping × Cursor) := do
  match chomping? p with
  | some (chomping, p) =>
    match ← increment? p with
    | some (n, p) => pure (some n, chomping, p)
    | none => pure (none, chomping, p)
  | none =>
    match ← increment? p with
    | some (n, p) =>
      match chomping? p with
      | some (chomping, p) => pure (some n, chomping, p)
      | none => pure (some n, .clip, p)
    | none => pure (none, .clip, p)

/-- Empty lines at the start of a block scalar, and the deepest column that is reached. -/
def blockStart : (fuel deepest : Nat) → Cursor → List Char × Nat × Cursor
  | 0, deepest, p => ([], deepest, p)
  | fuel + 1, deepest, p =>
    match p.lineBreak? with
    | some (b, p) =>
      let (bs, deepest, p) := blockStart fuel deepest p
      (b :: bs, deepest, p)
    | none =>
      if p.sees ' ' then blockStart fuel (max deepest p.next.column) p.next
      else ([], deepest, p)

/-- The place after the blanks of a line, up to a column. -/
def skipIndent (indent : Nat) : (fuel : Nat) → Cursor → Cursor
  | 0, p => p
  | fuel + 1, p =>
    if p.column < indent && p.sees ' ' then skipIndent indent fuel p.next else p

/-- Empty lines inside a block scalar. -/
def blockBreaks (indent : Nat) : (fuel : Nat) → Cursor → List Char × Cursor
  | 0, p => ([], p)
  | fuel + 1, p =>
    let p := skipIndent indent indent p
    match p.lineBreak? with
    | none => ([], p)
    | some (b, p) =>
      let (bs, p) := blockBreaks indent fuel p
      (b :: bs, p)

/-- The lines of a block scalar: its contents, and the break after the last line with the empty
lines that follow. -/
def blockLines (fold : Bool) (indent : Nat) : (fuel : Nat) → (breaks : List Char) → Cursor →
    List Char × List Char × List Char × Cursor
  | 0, breaks, p => ([], [], breaks, p)
  | fuel + 1, breaks, p =>
    if p.column ≠ indent || p.rest.isEmpty then ([], [], breaks, p)
    else
      let flush := !p.peek?.any isBlank
      let (line, p) := p.takeWhile fun c => !isBreak c
      let (last, p) := match p.lineBreak? with
        | some (b, p) => ([b], p)
        | none => ([], p)
      let (after, p) := blockBreaks indent fuel p
      if p.column = indent && !p.rest.isEmpty then
        let gap :=
          if fold && last == ['\n'] && flush && !p.peek?.any isBlank then
            if after.isEmpty then [' '] else []
          else last
        let (more, last, ends, p) := blockLines fold indent fuel after p
        (breaks ++ line ++ gap ++ more, last, ends, p)
      else (breaks ++ line, last, after, p)

/-- The contents of the block scalar at a place, which starts with its indicator. Its lines are
indented more deeply than `parent`. -/
def blockScalar (fold : Bool) (parent : Int) (p : Cursor) : Except Fault (List Char × Cursor) := do
  let fuel := p.rest.length + 1
  let (increment, chomping, p) ← blockHeader p.next
  if !endsField p.rest then throw .malformed
  match p.endLine? with
  | none => throw .malformed
  | some p =>
    let least := max (parent + 1) 1
    let (indent, breaks, p) := match increment with
      | some n =>
        let indent := (least + n - 1).toNat
        (indent, blockBreaks indent fuel p)
      | none =>
        let (breaks, deepest, p) := blockStart fuel 0 p
        (max least.toNat deepest, breaks, p)
    let (body, last, ends, p) := blockLines fold indent fuel breaks p
    pure (match chomping with
      | .strip => (body, p)
      | .clip => (body ++ last, p)
      | .keep => (body ++ last ++ ends, p))

end CircuitSketch.Yaml
