import CircuitSketch.Bits.Primitive
import CircuitSketch.Evaluation.Operator

/-!
# The value of an expression

`Expr.eval` gives the value of an expression over any bit algebra, from values for variables and
holes and a choice of primitives. Operations need the values of all their operands, and a choice
needs its selector first: if that is constant, only the chosen side is evaluated.

Operands are evaluated from the last to the first, which decides the error when several of them have
none. Operators on numbers need constant operands.
-/
namespace CircuitSketch

/-- The value of a node: a word, a list of words, or named words. -/
inductive Value (β : Type)
  | word (bits : List β)
  | list (items : List (List β))
  | group (fields : List (String × List β))

/-- Why an expression has no value. -/
inductive EvalError
  | noVariable (name : String)
  | openHole (h : Hole)
  | noModule (name : String)
  | primitive (cause : PrimitiveError)
  | missingOutput (module name : String) (width : Nat)
  | symbolicOperand (op : String)
  | notWord (kind : String)
  | malformed
deriving DecidableEq, Repr

/-- The message of an evaluation that fails; `showHole` names holes. -/
def EvalError.message (showHole : Hole → String) : EvalError → String
  | noVariable name => "No value for variable '" ++ name ++ "'"
  | openHole h => "Unresolved " ++ showHole h
  | noModule name => "No semantics for module '" ++ name ++ "'"
  | primitive cause => cause.message
  | missingOutput module name width =>
    "Module '" ++ module ++ s!"' did not produce {width}-bit output '" ++ name ++ "'"
  | symbolicOperand op => "Operator '" ++ op ++ "' needs concrete operands"
  | notWord kind => "interpret() needs a bit-vector, got " ++ kind
  | malformed => "Cannot evaluate a malformed expression"

/-- The numbers that the message of an evaluation that fails shows. -/
def EvalError.numbers : EvalError → List Int
  | openHole h => [(h.width : Int)]
  | missingOutput _ _ width => [(width : Int)]
  | _ => []

/-- What an evaluation starts from: the numbers of variables, the bits of holes, and the primitives
behind module names. -/
structure Context (β : Type) where
  input : String → Option Int
  decision : Hole → Option (List β)
  modules : ModuleTable

namespace Value

variable {β : Type}

/-- The words of operands that all stand for words. -/
def words : List (Value β) → Except EvalError (List (List β))
  | [] => .ok []
  | word b :: rest => do
    let bs ← words rest
    .ok (b :: bs)
  | _ :: _ => .error .malformed

end Value

section Operations

variable {β : Type} [BitAlgebra β]

/-- A constant word holding a number. -/
def wordOf (width : Nat) (n : Int) : Value β := .word (BitAlgebra.constants (Word.ofInt width n))

/-- Adds zeros on top of a word. -/
def zeroExtend (width : Nat) (bits : List β) : List β :=
  bits ++ List.replicate (width - bits.length) (BitAlgebra.const false)

/-- Adds copies of the top bit to a word. -/
def dupExtend (width : Nat) (bits : List β) : List β :=
  match bits.getLast? with
  | some top => bits ++ List.replicate (width - bits.length) top
  | none => bits

/-- The condition that index bits hold a given position. -/
def holdsPosition (index : List β) (position : Nat) : β :=
  index.zipIdx.foldl
    (fun matching b =>
      BitAlgebra.and matching (if position.testBit b.2 then b.1 else BitAlgebra.not b.1))
    (BitAlgebra.const true)

/-- The item that index bits select, and zero past the end. A constant index picks the item at once;
any other weighs every item by the condition that the index holds its position. -/
def lookupItem (items : List (List β)) (index : List β) : List β :=
  let zero := List.replicate (items.headD []).length (BitAlgebra.const false)
  match BitAlgebra.constants? index with
  | some bits => items.getD (Word.toNat bits) zero
  | none =>
    items.zipIdx.foldl
      (fun result item => BitAlgebra.select (holdsPosition index item.2) result item.1) zero

/-- A number held by constant bits. -/
def operandNumber (op : String) (bits : List β) : Except EvalError Nat :=
  match BitAlgebra.constants? bits with
  | some bs => .ok (Word.toNat bs)
  | none => .error (.symbolicOperand op)

/-- Whether a declared output was produced with its width. -/
def produces (fields : List (String × List β)) (declared : String × Nat) : Bool :=
  match fields.lookup declared.1 with
  | some bits => bits.length == declared.2
  | none => false

/-- Runs a placed primitive and checks its declared outputs. -/
def placed (c : Context β) (module : String) (ports : List String) (outputs : List (String × Nat))
    (words : List (List β)) : Except EvalError (Value β) :=
  match c.modules module with
  | none => .error (.noModule module)
  | some p =>
    match p.run (ports.zip words) with
    | .error cause => .error (.primitive cause)
    | .ok fields =>
      match outputs.find? fun declared => !produces fields declared with
      | some (name, width) => .error (.missingOutput module name width)
      | none => .ok (.group fields)

/-- The value of an operation from the values of its operands. -/
def Op.eval (c : Context β) (op : Op) (args : List (Value β)) : Except EvalError (Value β) :=
  match op, args with
  | .const width value, [] => .ok (wordOf width value)
  | .var name width, [] =>
    match c.input name with
    | some n => .ok (wordOf width n)
    | none => .error (.noVariable name)
  | .extract lo hi, [.word b] => .ok (.word ((b.drop lo).take (hi + 1 - lo)))
  | .concat, args => do
    let words ← Value.words args
    .ok (.word words.reverse.flatten)
  | .zeroExtend width, [.word b] => .ok (.word (CircuitSketch.zeroExtend width b))
  | .dupExtend width, [.word b] => .ok (.word (CircuitSketch.dupExtend width b))
  | .list, args => do
    let words ← Value.words args
    .ok (.list words)
  | .item position, [.list items] =>
    match items[position.toNat]? with
    | some b => .ok (.word b)
    | none => .error .malformed
  | .lookup, [.list items, .word index] => .ok (.word (lookupItem items index))
  | .record keys, args => do
    let words ← Value.words args
    .ok (.group (keys.zip words))
  | .primitive module ports outputs, args => do
    let words ← Value.words args
    placed c module ports outputs words
  | .output key, [.group fields] =>
    match fields.lookup key with
    | some b => .ok (.word b)
    | none => .error .malformed
  | .binary op, [.word a, .word b] => do
    let x ← operandNumber op.name a
    let y ← operandNumber op.name b
    .ok (wordOf (if op.isComparison then 1 else a.length) (op.apply a.length x y))
  | .unary op, [.word a] => do
    let x ← operandNumber op.name a
    .ok (wordOf a.length (op.apply a.length x))
  | _, _ => .error .malformed

/-- The bit of a hole that settles a choice. -/
def selectorBit (c : Context β) (selector : Hole) : Except EvalError β :=
  match c.decision selector with
  | none => .error (.openHole selector)
  | some (b :: _) => .ok b
  | some [] => .error .malformed

/-- Two words mixed by a selecting bit. -/
def mix (select : β) : Value β → Value β → Except EvalError (Value β)
  | .word a, .word b => .ok (.word (BitAlgebra.select select a b))
  | _, _ => .error .malformed

end Operations

namespace Expr

variable {β : Type} [BitAlgebra β]

mutual
/-- The value of an expression. -/
def eval (c : Context β) : Expr → Except EvalError (Value β)
  | hole h =>
    match c.decision h with
    | some bits => .ok (.word bits)
    | none => .error (.openHole h)
  | node _ op _ args =>
    match evalAll c args with
    | .ok values => op.eval c values
    | .error e => .error e
  | choose _ _ a b s =>
    match selectorBit c s with
    | .error e => .error e
    | .ok bit =>
      match BitAlgebra.constant? bit with
      | some true => eval c b
      | some false => eval c a
      | none =>
        match eval c b with
        | .error e => .error e
        | .ok y =>
          match eval c a with
          | .error e => .error e
          | .ok x => mix bit x y

/-- The values of several expressions, the last one first. -/
def evalAll (c : Context β) : List Expr → Except EvalError (List (Value β))
  | [] => .ok []
  | e :: rest =>
    match evalAll c rest with
    | .error err => .error err
    | .ok values =>
      match eval c e with
      | .error err => .error err
      | .ok value => .ok (value :: values)
end

end Expr
end CircuitSketch
