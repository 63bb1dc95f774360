import CircuitSketch.Template.Product
import CircuitSketch.Template.Shift
import CircuitSketch.Template.Tree

/-!
# Templates by name

The templates, the names they are asked for by, and one function that builds the sketch of any of
them.
-/
namespace CircuitSketch

/-- The templates. -/
inductive TemplateKind
  | bitwise
  | carry
  | bitwiseWithCarry
  | comparison
  | shallowComparison
  | multiplication
  | shift
deriving DecidableEq, Repr

namespace TemplateKind

/-- Every template, in the order in which they are listed. -/
def all : List TemplateKind :=
  [bitwise, carry, bitwiseWithCarry, comparison, shallowComparison, multiplication, shift]

/-- The name of a template. -/
def name : TemplateKind → String
  | bitwise => "bitwise"
  | carry => "carry"
  | bitwiseWithCarry => "bitwise_with_carry"
  | comparison => "comparison"
  | shallowComparison => "shallow_comparison"
  | multiplication => "multiplication"
  | shift => "shift"

/-- The names of all templates. -/
def names : List String := all.map name

/-- The template of a name. -/
def ofName (name : String) : Except Refusal TemplateKind :=
  match all.find? fun t => t.name == name with
  | some t => .ok t
  | none => .error (.option (.template name names))

/-- The name that a template is listed under as a generator of sketches. -/
def generatorName (t : TemplateKind) : String := t.name ++ "_sketch_generator"

end TemplateKind

/-- What may be asked of some templates: whether the tables of one row are all alike, whether a
shift has as few stages as possible, and what moves in from beyond the edge. -/
structure TemplateOptions where
  share : Bool
  logarithmic : Bool
  fill : Datum

/-- What a template is asked for with. -/
structure TemplateRequest where
  inputs : List Operand
  count : Datum
  width : Datum
  given : Option GivenProgram
  options : TemplateOptions

/-- The sketch of a template and its program. -/
def TemplateKind.sketch (t : TemplateKind) (p : Platform) (q : TemplateRequest) :
    Build Refusal (Expr × Program) :=
  match t with
  | bitwise => do
    let (e, l) ← Template.bitwise p q.inputs q.count q.width q.given
    pure (e, .lut l)
  | carry => do
    let (e, c) ← Template.carry p q.inputs q.count q.width q.given
    pure (e, .chain c)
  | bitwiseWithCarry => do
    let (e, a) ← Template.bitwiseWithCarry p q.inputs q.count q.width q.given
    pure (e, .adder a)
  | comparison => do
    let (e, c) ← Template.comparison p q.inputs q.count q.width q.given
    pure (e, .comparison c)
  | shallowComparison => do
    let (e, r) ← Template.shallowComparison p q.inputs q.count q.width q.given q.options.share
    pure (e, .reduction r)
  | multiplication => do
    let (e, m) ← Template.product p q.inputs q.count q.width q.given
    pure (e, .product m)
  | shift => do
    let (e, s) ←
      Template.shift p q.inputs q.count q.width q.given q.options.logarithmic q.options.fill
    pure (e, .shift s)

end CircuitSketch
