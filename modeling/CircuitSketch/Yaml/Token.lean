import CircuitSketch.Yaml.Plain
import CircuitSketch.Yaml.Quoted

/-!
# Tokens of a document

The tokens are the scalars and the marks between them. Indentation becomes tokens as well: a block
collection starts where something is indented more deeply than what is around it, and ends where the
indentation falls back.

A key is not marked in front, only by the colon behind it. Whatever might be a key is therefore kept
as a candidate, and the colon puts the token of the key in front of it. A key stands on one line and
is not longer than `maxKeyLength`.
-/
namespace CircuitSketch.Yaml

open Text (digits?)

/-- What a line that starts with a percent sign says about the documents. -/
inductive Directive
  | version (major : Nat)
  | handle (name expansion : List Char)
  | other
deriving DecidableEq, Repr

/-- A token. The tokens of a text end with `streamEnd`, or with the fault that ends the reading. -/
inductive Token
  | directive (d : Directive)
  | documentStart
  | documentEnd
  | streamEnd
  | broken (cause : Fault)
  | blockItemsStart
  | blockEntriesStart
  | blockEnd
  | blockItem
  | flowItemsStart
  | flowItemsEnd
  | flowEntriesStart
  | flowEntriesEnd
  | flowSeparator
  | key
  | value
  | alias (name : List Char)
  | anchor (name : List Char)
  | tag (handle : Option (List Char)) (suffix : List Char)
  | scalar (isPlain : Bool) (contents : List Nat)
deriving DecidableEq, Repr

/-- The greatest distance between the start of a key and its colon. -/
def maxKeyLength : Nat := 1024

/-- A token that a colon may turn into a key: the number of flow collections around it, its number
among the tokens, whether it has to be a key, and its place. -/
structure Candidate where
  level : Nat
  number : Nat
  required : Bool
  index : Nat
  line : Nat
  column : Nat

/-- The state of reading tokens: the place, the tokens so far, the indentation of the block
collection around the place and of those around that one, the number of flow collections around the
place, whether a key may start here, and the candidates for keys. -/
structure Scanner where
  place : Cursor
  tokens : Array Token
  indent : Int
  outer : List Int
  level : Nat
  keyAllowed : Bool
  candidates : List Candidate

namespace Scanner

/-- The state in front of a text. -/
def start (cs : List Char) : Scanner := ⟨.start cs, #[], -1, [], 0, true, []⟩

/-- Whether the place is inside a flow collection. -/
def inFlow (s : Scanner) : Bool := s.level ≠ 0

/-- Adds a token. -/
def emit (t : Token) (s : Scanner) : Scanner := { s with tokens := s.tokens.push t }

/-- Adds a token of some characters. -/
def mark (t : Token) (length : Nat) (s : Scanner) : Scanner :=
  { s.emit t with place := s.place.skip length }

/-- The candidate inside the same flow collection. -/
def candidate? (s : Scanner) : Option Candidate := s.candidates.find? fun k => k.level == s.level

/-- The candidates inside other flow collections. -/
def otherCandidates (s : Scanner) : List Candidate :=
  s.candidates.filter fun k => k.level != s.level

/-- Gives up the candidate inside the same flow collection. -/
def dropCandidate (s : Scanner) : Except Fault Scanner :=
  match s.candidate? with
  | none => .ok s
  | some k =>
    if k.required then .error .malformed else .ok { s with candidates := s.otherCandidates }

/-- Whether a candidate is too far away. -/
def isStale (s : Scanner) (k : Candidate) : Bool :=
  k.line ≠ s.place.line || decide (maxKeyLength < s.place.index - k.index)

/-- Gives up the candidates that are too far away. -/
def dropStale (s : Scanner) : Except Fault Scanner :=
  if s.candidates.any fun k => s.isStale k && k.required then .error .malformed
  else .ok { s with candidates := s.candidates.filter fun k => !s.isStale k }

/-- Makes the next token a candidate, if a key may start here. Where a key of the block map around
the place would stand, there has to be one. -/
def addCandidate (s : Scanner) : Except Fault Scanner :=
  if s.keyAllowed then do
    let s ← s.dropCandidate
    let k : Candidate :=
      ⟨s.level, s.tokens.size, !s.inFlow && s.indent == s.place.column, s.place.index,
        s.place.line, s.place.column⟩
    pure { s with candidates := k :: s.candidates }
  else .ok s

/-- Ends the block collections that are indented more deeply than a column. -/
def closeBlocks (column : Int) (tokens : Array Token) (indent : Int) :
    List Int → Array Token × Int × List Int
  | [] => (tokens, indent, [])
  | i :: outer =>
    if column < indent then closeBlocks column (tokens.push .blockEnd) i outer
    else (tokens, indent, i :: outer)

/-- Ends the block collections that are indented more deeply than a column. Inside flow collections
the indentation has no meaning. -/
def unwind (column : Int) (s : Scanner) : Scanner :=
  if s.inFlow then s
  else
    let (tokens, indent, outer) := closeBlocks column s.tokens s.indent s.outer
    { s with tokens := tokens, indent := indent, outer := outer }

/-- Starts a block collection at a column, in front of the token of a number, if the column is
deeper than the indentation. -/
def openBlock (t : Token) (column number : Nat) (s : Scanner) : Scanner :=
  if s.indent < column then
    { s with
      tokens := s.tokens.insertIdxIfInBounds number t
      indent := column
      outer := s.indent :: s.outer }
  else s

/-- The place of the next token. Comments and line breaks are passed over; after a line break a key
may start again, except in a flow collection. The `fuel` bounds the lines. -/
def skipGap (inFlow : Bool) : (fuel : Nat) → Bool → Cursor → Bool × Cursor
  | 0, keyAllowed, p => (keyAllowed, p)
  | fuel + 1, keyAllowed, p =>
    let p := p.skipComment
    match p.lineBreak? with
    | some (_, p) => skipGap inFlow fuel (keyAllowed || !inFlow) p
    | none => (keyAllowed, p)

/-- The state in front of the next token. -/
def toNextToken (s : Scanner) : Except Fault Scanner :=
  let p := if s.place.index = 0 && s.place.sees encodingMark then s.place.next else s.place
  let (keyAllowed, p) := skipGap s.inFlow (p.rest.length + 1) s.keyAllowed p
  do
    let s ← { s with place := p, keyAllowed := keyAllowed }.dropStale
    pure (s.unwind s.place.column)

/-- Letters, digits and the two signs that names consist of. -/
def isNameChar (c : Char) : Bool := c.isAlphanum || c = '-' || c = '_'

/-- Characters of a tag besides percent signs. -/
def isTagChar (c : Char) : Bool := isNameChar c || ";/?:@&=+$,.!~*\x27()[]".toList.contains c

/-- The bytes that percent signs stand for. -/
def percentBytes : List Char → Option (List UInt8)
  | '%' :: a :: b :: rest =>
    match digits? 16 [a, b] with
    | some n => (percentBytes rest).map (n.toUInt8 :: ·)
    | none => none
  | '%' :: _ => none
  | _ => some []

/-- The characters of a tag. A run of percent signs stands for the characters that its bytes
encode. -/
def tagText : (fuel : Nat) → Cursor → Except Fault (List Char × Cursor)
  | 0, _ => .error .malformed
  | fuel + 1, p =>
    let (plain, p) := p.takeWhile isTagChar
    if p.sees '%' then
      match percentBytes p.rest with
      | none => .error .malformed
      | some bytes =>
        match String.fromUTF8? ⟨bytes.toArray⟩ with
        | none => .error .malformed
        | some s => do
          let (more, p) ← tagText fuel (p.skip (3 * bytes.length))
          pure (plain ++ s.toList ++ more, p)
    else .ok (plain, p)

/-- The characters of a tag, of which there has to be one. -/
def nonEmptyTag (p : Cursor) : Except Fault (List Char × Cursor) := do
  let (cs, p) ← tagText (p.rest.length + 1) p
  if cs.isEmpty then throw .malformed else pure (cs, p)

/-- The handle of a tag: one exclamation mark, or a name between two. -/
def tagHandle (p : Cursor) : Except Fault (List Char × Cursor) :=
  if !p.sees '!' then .error .malformed
  else
    let (name, q) := p.next.takeWhile isNameChar
    if q.sees '!' then .ok ('!' :: name ++ ['!'], q.next)
    else if p.next.sees ' ' then .ok (['!'], p.next)
    else .error .malformed

/-- The tag at a place. -/
def tagAt (p : Cursor) : Except Fault (Token × Cursor) := do
  let (token, p) ←
    if p.next.sees '<' then do
      let (suffix, p) ← nonEmptyTag (p.skip 2)
      if p.sees '>' then pure (Token.tag none suffix, p.next) else throw .malformed
    else if endsWord p.next.rest then pure (Token.tag none ['!'], p.next)
    else if (p.next.rest.takeWhile fun c => c ≠ ' ' && !isBreak c).contains '!' then do
      let (handle, p) ← tagHandle p
      let (suffix, p) ← nonEmptyTag p
      pure (Token.tag (some handle) suffix, p)
    else do
      let (suffix, p) ← nonEmptyTag p.next
      pure (Token.tag (some ['!']) suffix, p)
  if endsField p.rest then pure (token, p) else throw .malformed

/-- The name of an anchor or an alias. -/
def anchorName (p : Cursor) : Except Fault (List Char × Cursor) :=
  let (name, p) := p.takeWhile isNameChar
  if name.isEmpty then .error .malformed
  else if endsWord p.rest || p.rest.head?.any fun c => "?:,]\x7d%@\x60".toList.contains c then
    .ok (name, p)
  else .error .malformed

/-- A number in a directive. -/
def directiveNumber (p : Cursor) : Except Fault (Nat × Cursor) :=
  let (cs, p) := p.takeWhile Char.isDigit
  if cs.isEmpty then .error .malformed
  else
    match Text.readNumber 10 (cs.map Char.toNat) with
    | .ok n => .ok (n.toNat, p)
    | .error cause => .error (.numeral cause)

/-- The directive at a place, up to the end of its line. -/
def directiveAt (p : Cursor) : Except Fault (Directive × Cursor) := do
  let (name, p) := p.next.takeWhile isNameChar
  if name.isEmpty || !endsField p.rest then throw .malformed
  let (d, p) ←
    if name = "YAML".toList then do
      let (major, p) ← directiveNumber (p.skipWhile (· = ' '))
      if !p.sees '.' then throw .malformed
      let (_, p) ← directiveNumber p.next
      if endsField p.rest then pure (Directive.version major, p) else throw .malformed
    else if name = "TAG".toList then do
      let (handle, p) ← tagHandle (p.skipWhile (· = ' '))
      if !p.sees ' ' then throw .malformed
      let (expansion, p) ← nonEmptyTag (p.skipWhile (· = ' '))
      if endsField p.rest then pure (Directive.handle handle expansion, p) else throw .malformed
    else pure (Directive.other, p.skipWhile fun c => !isBreak c)
  match p.endLine? with
  | some p => pure (d, p)
  | none => throw .malformed

/-- A token that stands for itself outside all collections: the blocks end, and no key may follow on
the line. -/
def documentMark (read : Cursor → Except Fault (Token × Cursor)) (s : Scanner) :
    Except Fault Scanner := do
  let s ← (s.unwind (-1)).dropCandidate
  let (t, p) ← read s.place
  pure { s.emit t with place := p, keyAllowed := false }

/-- A token that may be a key, or the start of one. -/
def keyPart (read : Cursor → Except Fault (Token × Cursor)) (s : Scanner) :
    Except Fault Scanner := do
  let s ← s.addCandidate
  let (t, p) ← read s.place
  pure { s.emit t with place := p, keyAllowed := false }

/-- The start of a flow collection. -/
def flowStart (t : Token) (s : Scanner) : Except Fault Scanner := do
  let s ← s.addCandidate
  pure { s.mark t 1 with level := s.level + 1, keyAllowed := true }

/-- The end of a flow collection. -/
def flowEnd (t : Token) (s : Scanner) : Except Fault Scanner := do
  let s ← s.dropCandidate
  if s.inFlow then pure { s.mark t 1 with level := s.level - 1, keyAllowed := false }
  else throw .malformed

/-- The separator of the parts of a flow collection. -/
def separator (s : Scanner) : Except Fault Scanner := do
  let s ← s.dropCandidate
  pure { s.mark .flowSeparator 1 with keyAllowed := true }

/-- Starts a block collection at the place, where a key could start as well. -/
def blockHere (t : Token) (s : Scanner) : Except Fault Scanner :=
  if s.inFlow then .ok s
  else if s.keyAllowed then .ok (s.openBlock t s.place.column s.tokens.size)
  else .error .malformed

/-- The dash of an item. -/
def item (s : Scanner) : Except Fault Scanner := do
  let s ← s.blockHere .blockItemsStart
  let s ← s.dropCandidate
  pure { s.mark .blockItem 1 with keyAllowed := true }

/-- The question mark of a key. -/
def explicitKey (s : Scanner) : Except Fault Scanner := do
  let s ← s.blockHere .blockEntriesStart
  let s ← s.dropCandidate
  pure { s.mark .key 1 with keyAllowed := !s.inFlow }

/-- The colon of a value. It makes the candidate in front of it a key. -/
def value (s : Scanner) : Except Fault Scanner :=
  match s.candidate? with
  | some k =>
    let s := { s with
      candidates := s.otherCandidates
      tokens := s.tokens.insertIdxIfInBounds k.number .key
      keyAllowed := false }
    let s := if s.inFlow then s else s.openBlock .blockEntriesStart k.column k.number
    .ok (s.mark .value 1)
  | none => do
    let s ← s.blockHere .blockEntriesStart
    pure { s.mark .value 1 with keyAllowed := !s.inFlow }

/-- A block scalar. -/
def blockText (fold : Bool) (s : Scanner) : Except Fault Scanner := do
  let s ← s.dropCandidate
  let (cs, p) ← blockScalar fold s.indent s.place
  pure { s.emit (.scalar false (cs.map Char.toNat)) with place := p, keyAllowed := true }

/-- A plain scalar. Where it is followed by the end of a line, a key may start again. -/
def plainText (s : Scanner) : Except Fault Scanner := do
  let s ← s.addCandidate
  let (cs, crossed, p) := plainScalar s.inFlow (s.indent + 1) s.place
  pure { s.emit (.scalar true (cs.map Char.toNat)) with place := p, keyAllowed := crossed }

/-- Reads the next token, which starts with a character. -/
def token (c : Char) (s : Scanner) : Except Fault Scanner :=
  let rest := s.place.next.rest
  let atLineStart := s.place.column = 0
  if c = '%' && atLineStart then
    s.documentMark fun p => (directiveAt p).map fun r => (.directive r.1, r.2)
  else if atLineStart && isMarker '-' s.place.rest then
    s.documentMark fun p => .ok (.documentStart, p.skip 3)
  else if atLineStart && isMarker '.' s.place.rest then
    s.documentMark fun p => .ok (.documentEnd, p.skip 3)
  else if c = '[' then s.flowStart .flowItemsStart
  else if c = '\x7b' then s.flowStart .flowEntriesStart
  else if c = ']' then s.flowEnd .flowItemsEnd
  else if c = '\x7d' then s.flowEnd .flowEntriesEnd
  else if c = ',' then s.separator
  else if c = '-' && endsWord rest then s.item
  else if c = '?' && (s.inFlow || endsWord rest) then s.explicitKey
  else if c = ':' && (s.inFlow || endsWord rest) then s.value
  else if c = '*' then
    s.keyPart fun p => (anchorName p.next).map fun r => (.alias r.1, r.2)
  else if c = '&' then
    s.keyPart fun p => (anchorName p.next).map fun r => (.anchor r.1, r.2)
  else if c = '!' then s.keyPart tagAt
  else if c = '|' && !s.inFlow then s.blockText false
  else if c = '>' && !s.inFlow then s.blockText true
  else if c = '\x27' || c = '"' then
    s.keyPart fun p => (quotedScalar c p).map fun r => (.scalar false r.1, r.2)
  else if startsPlain s.inFlow s.place.rest then s.plainText
  else .error .malformed

/-- The number of tokens that are certain: those in front of the first candidate. -/
def certain (s : Scanner) : Nat :=
  (s.candidates.filter fun k => !s.isStale k).foldl (fun n k => min n k.number) s.tokens.size

/-- The tokens where a fault comes next. Those that are not certain are lost. -/
def brokenOff (s : Scanner) (cause : Fault) : Array Token :=
  (s.tokens.extract 0 s.certain).push (.broken cause)

/-- The tokens of a text from a state on. Each token takes a character at least. -/
def run : (fuel : Nat) → Scanner → Array Token
  | 0, s => s.tokens.push .streamEnd
  | fuel + 1, s =>
    match s.toNextToken with
    | .error cause => s.brokenOff cause
    | .ok t =>
      match t.place.peek? with
      | none =>
        match (t.unwind (-1)).dropCandidate with
        | .error cause => s.brokenOff cause
        | .ok t => t.tokens.push .streamEnd
      | some c =>
        match t.token c with
        | .error cause => s.brokenOff cause
        | .ok t => run fuel t

end Scanner

/-- The tokens of a text. -/
def tokens (cs : List Char) : List Token := (Scanner.run (cs.length + 1) (.start cs)).toList

end CircuitSketch.Yaml
