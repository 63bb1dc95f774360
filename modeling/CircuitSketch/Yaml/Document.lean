import CircuitSketch.Yaml.Content

/-!
# Documents

A text holds one document, and a document holds one datum: that of its root. Maps become objects,
and a map can take over the entries of others, which its own entries override.

A text is looked through piece by piece for characters that no document may contain. Before a piece
with one, the tokens of the pieces in front of it are read, and their fault comes first.
-/
namespace CircuitSketch.Yaml

/-- Whether a character may occur in a document. -/
def isAllowed (c : Char) : Bool :=
  c = '\t' || c = '\n' || (' ' ≤ c && c ≤ '~') || c = '\u0085' ||
    ('\u00a0' ≤ c && c ≤ '\ufffd') || '\uffff' < c

/-- Line breaks in one form: a carriage return is one, also together with a line feed after it. -/
def unifyBreaks : List Char → List Char
  | '\r' :: '\n' :: rest => '\n' :: unifyBreaks rest
  | '\r' :: rest => '\n' :: unifyBreaks rest
  | c :: rest => c :: unifyBreaks rest
  | [] => []

/-- The length of a piece of a text. The first piece is twice as long. -/
def pieceLength : Nat := 4096

/-- The number of characters in front of the piece with a character. -/
def pieceStart (index : Nat) : Nat :=
  if index < 2 * pieceLength then 0 else index / pieceLength * pieceLength

/-- The nodes of the document that characters form. -/
def graph (cs : List Char) : Except Fault (Option Graph) := Graph.ofTokens (tokens cs)

/-- The datum that a text holds; nothing at all counts as a datum as well. -/
def document (text : String) : Except Fault Datum := do
  let cs := unifyBreaks text.toList
  match cs.findIdx? fun c => !isAllowed c with
  | some index =>
    let _ ← graph (cs.take (pieceStart index))
    throw .malformed
  | none =>
    match ← graph cs with
    | none => return .null
    | some g => g.datum

end CircuitSketch.Yaml
