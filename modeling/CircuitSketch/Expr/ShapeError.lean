import CircuitSketch.Datum.Literal

/-!
# Why a node cannot be made

The rules on shapes are checked when a node is made. Each constructor below is one way to break
them, and `ShapeError.message` words it.
-/
namespace CircuitSketch

/-- What was being made when an operand or a width turned out wrong. -/
inductive Place
  | const
  | var (name : String)
  | hole
  | extract
  | concat
  | zeroExtend
  | dupExtend
  | list
  | index
  | entry (key : String)
  | port (module name : String)
  | result (module name : String)
  | choose
  | binary (op : String)
  | unary (op : String)
  | bits
deriving DecidableEq, Repr

/-- The words for a place in a message. -/
def Place.text : Place → String
  | const => "Const"
  | var name => "Var " ++ name
  | hole => "Hole"
  | extract => "Extract"
  | concat => "Concat"
  | zeroExtend => "ZeroExtend"
  | dupExtend => "DupExtend"
  | list => "ListLit"
  | index => "ListRef index"
  | entry key => "MapLit[" ++ key ++ "]"
  | port module name => "Instance " ++ module ++ " port " ++ name
  | result module name => "Instance " ++ module ++ " output " ++ name
  | choose => "Choose"
  | binary op => "BinOp " ++ op
  | unary op => "UnOp " ++ op
  | bits => "bits"

/-- A broken rule on shapes. -/
inductive ShapeError
  | badWidth (place : Place) (given : Datum)
  | notExpression (place : Place) (kind : String)
  | notWord (place : Place) (kind : String)
  | valueRange (value : Int) (width : Nat)
  | bitRange (width : Nat) (lo hi : Int)
  | noParts
  | noItems
  | narrowing (place : Place) (width narrower : Nat)
  | itemWidths (widths : List Nat)
  | notList (kind : String)
  | position (given : Datum) (count : Nat)
  | repeatedKey (keys : List String)
  | notGroup (kind : String)
  | noKey (key : String) (known : List String)
  | operandWidths (place : Place) (left right : Nat)
  | badSelector
  | unknownBinary (name : String)
  | unknownUnary (name : String)
  | variableWidths (name : String) (first later : Nat)
  | holeValueWidth (value width holeWidth : Nat)

/-- The message of a broken rule. -/
def ShapeError.message : ShapeError → String
  | badWidth place given =>
    place.text ++ ": width must be a positive integer, got " ++ given.literal
  | notExpression place kind => place.text ++ ": expected an Expression, got " ++ kind
  | notWord place kind => place.text ++ ": expected a bit-vector, got " ++ kind
  | valueRange value width => s!"Const: value {value} does not fit in {width} bits"
  | bitRange width lo hi => s!"Extract: need 0 <= lo <= hi < {width}, got lo={lo} hi={hi}"
  | noParts => "Concat: needs at least one part"
  | noItems => "ListLit: needs at least one item"
  | narrowing place width narrower =>
    place.text ++ s!": cannot narrow {width} bits to {narrower}"
  | itemWidths widths =>
    "ListLit: items must share one width, got " ++ Text.bracketed (widths.map toString)
  | notList kind => "ListRef: expected a ListLit, got " ++ kind
  | position given count =>
    "ListRef: index " ++ given.literal ++ s!" out of range for {count} items"
  | repeatedKey keys => "MapLit: duplicate keys in " ++ Text.nameList keys
  | notGroup kind => "MapRef: expected a map, got " ++ kind
  | noKey key known =>
    "MapRef: key '" ++ key ++ "' not in " ++ Text.nameList (Text.sortedNames known)
  | operandWidths place left right =>
    place.text ++ s!": operand widths differ ({left} vs {right})"
  | badSelector => "Choose: selector must be a 1-bit Hole"
  | unknownBinary name => "BinOp: unknown operator '" ++ name ++ "'"
  | unknownUnary name => "UnOp: unknown operator '" ++ name ++ "'"
  | variableWidths name first later =>
    "Variable '" ++ name ++ s!"' used with widths {first} and {later}"
  | holeValueWidth value width holeWidth =>
    s!"Value Const(width={width}, value={value}) has width {width}, hole has {holeWidth}"

/-- The numbers that the message of a broken rule shows. -/
def ShapeError.numbers : ShapeError → List Int
  | badWidth _ given => given.numbers
  | valueRange value width => [value, width]
  | bitRange width lo hi => [width, lo, hi]
  | narrowing _ width narrower => [width, narrower]
  | itemWidths widths => widths.map Int.ofNat
  | position given count => given.numbers ++ [(count : Int)]
  | operandWidths _ left right => [left, right]
  | variableWidths _ first later => [first, later]
  | holeValueWidth value width holeWidth => [value, width, holeWidth]
  | _ => []

end CircuitSketch
