import CircuitSketch.Expr.Build
import CircuitSketch.Expr.ShapeError

/-!
# Checked construction

Making a node from arguments that may be anything: an operand need not be an expression, and a width
need not be a number. Every rule on shapes is checked here, operands from left to right, and the
first broken rule is the error.
-/
namespace CircuitSketch

/-- What was given where an expression is expected. Of a value that is neither an expression nor
plain data only its kind matters. -/
inductive Operand
  | expr (e : Expr)
  | datum (d : Datum)
  | other (kind : String)

namespace Operand

/-- The name of the kind of an operand. -/
def kind : Operand → String
  | expr e => e.kind
  | datum d => d.kind
  | other k => k

/-- The operand as an expression that stands for a word. -/
def word (place : Place) : Operand → Except ShapeError Expr
  | expr e => if e.isWord then .ok e else .error (.notWord place e.kind)
  | operand => .error (.notExpression place operand.kind)

/-- Every operand as an expression that stands for a word. -/
def words (place : Place) : List Operand → Except ShapeError (List Expr)
  | [] => .ok []
  | x :: xs => do
    let e ← x.word place
    let es ← words place xs
    .ok (e :: es)

theorem word_eq_ok {place : Place} {x : Operand} {e : Expr} (h : x.word place = .ok e) :
    x = expr e ∧ e.isWord = true := by
  cases x with
  | expr f =>
    simp only [word] at h
    split at h
    · cases h
      exact ⟨rfl, by assumption⟩
    · simp at h
  | _ => simp [word] at h

end Operand

/-- A width, which has to be a whole number above zero. -/
def widthOf (place : Place) (given : Datum) : Except ShapeError Nat :=
  match given.positive? with
  | some w => .ok w
  | none => .error (.badWidth place given)

namespace Checked

/-- A constant. Values from `-twoPow width` up to `twoPow width - 1` are accepted. -/
def const (width : Datum) (value : Int) : Build ShapeError Expr := do
  let w ← widthOf .const width
  if -(twoPow w : Int) ≤ value ∧ value < twoPow w then Build.const w value
  else Build.fail (.valueRange value w)

/-- A variable. -/
def var (name : String) (width : Datum) : Build ShapeError Expr := do
  let w ← widthOf (.var name) width
  Build.node (.var name w) (.word w) []

/-- A hole. -/
def hole (width : Datum) (name : Option String) : Build ShapeError Expr := do
  let w ← widthOf .hole width
  let h ← Build.newHole w name
  pure (.hole h)

/-- Bits `lo` to `hi` of a word. -/
def extract (lo hi : Int) (operand : Operand) : Build ShapeError Expr := do
  let e ← operand.word .extract
  if 0 ≤ lo ∧ lo ≤ hi ∧ hi < e.width then Build.extract lo.toNat hi.toNat e
  else Build.fail (.bitRange e.width lo hi)

/-- Words joined, the first one on top. -/
def concat (operands : List Operand) : Build ShapeError Expr := do
  if operands.isEmpty then Build.fail .noParts
  else
    let parts ← Operand.words .concat operands
    Build.concat parts

/-- A word with zeros added on top. -/
def zeroExtend (operand : Operand) (width : Datum) : Build ShapeError Expr := do
  let e ← operand.word .zeroExtend
  let w ← widthOf .zeroExtend width
  if w < e.width then Build.fail (.narrowing .zeroExtend e.width w) else Build.zeroExtend e w

/-- A word with copies of its top bit added. -/
def dupExtend (operand : Operand) (width : Datum) : Build ShapeError Expr := do
  let e ← operand.word .dupExtend
  let w ← widthOf .dupExtend width
  if w < e.width then Build.fail (.narrowing .dupExtend e.width w) else Build.dupExtend e w

/-- The distinct numbers of a list in increasing order. -/
def distinct (ns : List Nat) : List Nat :=
  ns.eraseDups.mergeSort fun a b => decide (a ≤ b)

/-- A list of words of one width. -/
def list (operands : List Operand) : Build ShapeError Expr := do
  if operands.isEmpty then Build.fail .noItems
  else
    let items ← Operand.words .list operands
    let widths := distinct (items.map Expr.width)
    if widths.length = 1 then Build.list items else Build.fail (.itemWidths widths)

/-- A position in the form it was given in, from its number. -/
def positionOf (given : Datum) (number : Nat) : Position :=
  match given with
  | .bool b => .truth b
  | _ => .number number

/-- The item of a list at a position given as a number, or selected by a word. -/
def item (operand index : Operand) : Build ShapeError Expr := do
  match operand with
  | .expr e =>
    match e.shape with
    | .list width length =>
      match index with
      | .datum d =>
        match d.number? with
        | some i =>
          if 0 ≤ i ∧ i < length then Build.node (.item (positionOf d i.toNat)) (.word width) [e]
          else Build.fail (.position d length)
        | none => Build.fail (.notExpression .index d.kind)
      | index => do
        let i ← index.word .index
        Build.lookup e i
    | _ => Build.fail (.notList e.kind)
  | operand => Build.fail (.notList operand.kind)

/-- The values of named operands, each of which has to be a word. -/
def namedWords (place : String → Place) :
    List (String × Operand) → Except ShapeError (List (String × Expr))
  | [] => .ok []
  | (name, x) :: rest => do
    let e ← x.word (place name)
    let es ← namedWords place rest
    .ok ((name, e) :: es)

/-- Named words. No name may be used twice. -/
def record (entries : List (String × Operand)) : Build ShapeError Expr := do
  let keys := entries.map (·.1)
  if keys.eraseDups.length = keys.length then
    let fields ← namedWords .entry entries
    Build.node (.record keys) (.group (fields.map fun f => (f.1, f.2.width))) (fields.map (·.2))
  else Build.fail (.repeatedKey keys)

/-- The widths that a primitive declares for its outputs. -/
def outputWidths (module : String) :
    List (String × Datum) → Except ShapeError (List (String × Nat))
  | [] => .ok []
  | (name, width) :: rest => do
    let w ← widthOf (.result module name) width
    let ws ← outputWidths module rest
    .ok ((name, w) :: ws)

/-- A placed primitive. -/
def primitive (module : String) (ports : List (String × Operand))
    (outputs : List (String × Datum)) : Build ShapeError Expr := do
  let wired ← namedWords (.port module) ports
  let declared ← outputWidths module outputs
  Build.primitive module wired declared

/-- The width declared for a name; the last declaration counts. -/
def fieldWidth? (fields : List (String × Nat)) (key : String) : Option Nat :=
  fields.reverse.lookup key

/-- A named word of a record or of a placed primitive. -/
def output (operand : Operand) (key : String) : Build ShapeError Expr := do
  match operand with
  | .expr e =>
    match e.shape with
    | .group fields =>
      match fieldWidth? fields key with
      | some w => Build.output e key w
      | none => Build.fail (.noKey key (fields.map (·.1)))
    | _ => Build.fail (.notGroup e.kind)
  | operand => Build.fail (.notGroup operand.kind)

/-- A choice between two words of one width, settled by a hole of one bit. -/
def choose (a b selector : Operand) : Build ShapeError Expr := do
  let x ← a.word .choose
  let y ← b.word .choose
  if x.width = y.width then
    match selector with
    | .expr (.hole s) => if s.width = 1 then Build.chooseBy x y s else Build.fail .badSelector
    | _ => Build.fail .badSelector
  else Build.fail (.operandWidths .choose x.width y.width)

/-- A choice settled by a new hole. -/
def chooseNew (a b : Operand) : Build ShapeError Expr := do
  let s ← Build.newHole 1 none
  choose a b (.expr (.hole s))

/-- An operator on two words of one width. -/
def binary (name : String) (a b : Operand) : Build ShapeError Expr := do
  match BinaryOp.ofName? name with
  | none => Build.fail (.unknownBinary name)
  | some op =>
    let x ← a.word (.binary name)
    let y ← b.word (.binary name)
    if x.width = y.width then
      Build.node (.binary op) (.word (if op.isComparison then 1 else x.width)) [x, y]
    else Build.fail (.operandWidths (.binary name) x.width y.width)

/-- An operator on one word. -/
def unary (name : String) (a : Operand) : Build ShapeError Expr := do
  match UnaryOp.ofName? name with
  | none => Build.fail (.unknownUnary name)
  | some op =>
    let x ← a.word (.unary name)
    Build.node (.unary op) (.word x.width) [x]

/-- Bits `lo` to `hi` of a word; the word itself when these are all of its bits. -/
def slice (operand : Operand) (lo hi : Int) : Build ShapeError Expr :=
  match operand with
  | .expr e =>
    if lo = 0 ∧ e.isWord ∧ hi + 1 = e.width then pure e else extract lo hi operand
  | _ => extract lo hi operand

/-- One bit of a word; the word itself when it has only one. -/
def bit (operand : Operand) (i : Int) : Build ShapeError Expr :=
  match operand with
  | .expr e =>
    if e.isWord ∧ e.width = 1 ∧ i = 0 then pure e else extract i i operand
  | _ => extract i i operand

/-- Every bit of a word, least significant first. -/
def bits (operand : Operand) : Build ShapeError (List Expr) := do
  let e ← operand.word .bits
  Build.bits e

/-- Words joined, the last one on top; a single operand stays itself, whatever it is. -/
def concatBits : List Operand → Build ShapeError Operand
  | [x] => pure x
  | xs => do
    let e ← concat xs.reverse
    pure (.expr e)

end Checked
end CircuitSketch
