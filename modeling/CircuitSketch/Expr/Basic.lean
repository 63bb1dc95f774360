/-!
# Expressions

An expression is a hole (a decision still to be made), an operation on other expressions, or a
choice between two expressions that one hole settles. Expressions share their parts, and a part that
occurs twice is still one node: every node carries a tag given to no other node, so two occurrences
are the same node exactly when they are equal. Comparing nodes looks at the tags first, and at the
contents only when the tags agree.

Every node also records its shape: a word of some width, a list of words, or a group of named words.
-/
namespace CircuitSketch

/-- A decision: a word of `width` bits that is to be found. Two holes are the same decision only if
they are the same hole, whatever their widths and names. -/
structure Hole where
  tag : Nat
  width : Nat
  name : Option String
deriving DecidableEq, Repr

instance : Hashable Hole := ⟨fun h => hash h.tag⟩

/-- Operators on two words of one width. -/
inductive BinaryOp
  | and | or | xor | add | sub | mul | shl | lshr | ashr | eq | ne | ult | slt
deriving DecidableEq, Repr

namespace BinaryOp

/-- Every operator on two words. -/
def all : List BinaryOp := [and, or, xor, add, sub, mul, shl, lshr, ashr, eq, ne, ult, slt]

/-- The name of an operator. -/
def name : BinaryOp → String
  | and => "and" | or => "or" | xor => "xor" | add => "add" | sub => "sub" | mul => "mul"
  | shl => "shl" | lshr => "lshr" | ashr => "ashr" | eq => "eq" | ne => "ne" | ult => "ult"
  | slt => "slt"

/-- The operator of a name. -/
def ofName? (name : String) : Option BinaryOp :=
  all.find? fun op => op.name == name

/-- A comparison yields one bit; every other operator keeps the width of its operands. -/
def isComparison : BinaryOp → Bool
  | eq | ne | ult | slt => true
  | _ => false

end BinaryOp

/-- Operators on one word. -/
inductive UnaryOp
  | not | neg
deriving DecidableEq, Repr

namespace UnaryOp

/-- Every operator on one word. -/
def all : List UnaryOp := [not, neg]

/-- The name of an operator. -/
def name : UnaryOp → String
  | not => "not"
  | neg => "neg"

/-- The operator of a name. -/
def ofName? (name : String) : Option UnaryOp :=
  all.find? fun op => op.name == name

end UnaryOp

/-- The position of an item of a list. It may have been given as a truth value, which stands for
zero or one and is shown as it was given. -/
inductive Position
  | number (n : Nat)
  | truth (b : Bool)
deriving DecidableEq, Repr

/-- The number of a position. -/
def Position.toNat : Position → Nat
  | number n => n
  | truth b => b.toNat

/-- The operations of a circuit. Each takes its operands in order.

* `const` and `var` take none;
* `extract` keeps the bits from `lo` to `hi`, both included;
* `concat` joins words, the first operand on top;
* `zeroExtend` adds zeros on top, `dupExtend` copies of the top bit;
* `list` collects words of one width; `item` reads one by position, and `lookup` by a second
  operand, with zero past the end;
* `record` names its operands;
* `primitive` places a platform primitive, wired port by port, and declares its outputs;
* `output` reads one named word. -/
inductive Op
  | const (width value : Nat)
  | var (name : String) (width : Nat)
  | extract (lo hi : Nat)
  | concat
  | zeroExtend (width : Nat)
  | dupExtend (width : Nat)
  | list
  | item (position : Position)
  | lookup
  | record (keys : List String)
  | primitive (module : String) (ports : List String) (outputs : List (String × Nat))
  | output (key : String)
  | binary (op : BinaryOp)
  | unary (op : UnaryOp)
deriving DecidableEq, Repr

/-- The name that messages and listings use for an operation. -/
def Op.kind : Op → String
  | .const .. => "Const"
  | .var .. => "Var"
  | .extract .. => "Extract"
  | .concat => "Concat"
  | .zeroExtend _ => "ZeroExtend"
  | .dupExtend _ => "DupExtend"
  | .list => "ListLit"
  | .item _ | .lookup => "ListRef"
  | .record _ => "MapLit"
  | .primitive .. => "Instance"
  | .output _ => "MapRef"
  | .binary _ => "BinOp"
  | .unary _ => "UnOp"

/-- Whether two operations do the same. How a position was given makes no difference. -/
def Op.alike : Op → Op → Bool
  | .item p, .item q => p.toNat == q.toNat
  | op, op' => op == op'

/-- What a node stands for: a word, a list of words of one width, or named words. -/
inductive Shape
  | word (width : Nat)
  | list (width length : Nat)
  | group (fields : List (String × Nat))
deriving DecidableEq, Repr

namespace Shape

/-- The width of a word or of the items of a list. A group has none. -/
def width? : Shape → Option Nat
  | word w => some w
  | list w _ => some w
  | group _ => none

/-- Only a word can be an operand of most operations. -/
def isWord : Shape → Bool
  | word _ => true
  | _ => false

end Shape

/-- An expression over holes. See the head of this module. -/
inductive Expr
  | hole (h : Hole)
  | node (tag : Nat) (op : Op) (shape : Shape) (args : List Expr)
  | choose (tag width : Nat) (ifZero ifOne : Expr) (selector : Hole)

instance : Inhabited Expr := ⟨.hole ⟨0, 1, none⟩⟩

namespace Expr

/-- The tag that tells a node from every other. -/
def tag : Expr → Nat
  | hole h => h.tag
  | node t _ _ _ => t
  | choose t _ _ _ _ => t

/-- The shape of a node. -/
def shape : Expr → Shape
  | hole h => .word h.width
  | node _ _ s _ => s
  | choose _ w _ _ _ => .word w

/-- The width of a word or of the items of a list, and zero for a group. -/
def width (e : Expr) : Nat := e.shape.width?.getD 0

/-- Whether an expression stands for a word. -/
def isWord (e : Expr) : Bool := e.shape.isWord

/-- The name that messages and listings use for a node. -/
def kind : Expr → String
  | hole _ => "Hole"
  | node _ op _ _ => op.kind
  | choose .. => "Choose"

/-- The nodes that a node refers to, in order; those of a choice end with its selector. -/
def children : Expr → List Expr
  | hole _ => []
  | node _ _ _ args => args
  | choose _ _ a b s => [a, b, hole s]

mutual
/-- Equality of nodes. The tags are compared before anything below them. -/
protected def decEq (x y : Expr) : Decidable (x = y) :=
  withPtrEqDecEq x y fun _ =>
    match x, y with
    | .hole h, .hole k =>
      if e : h = k then .isTrue (e ▸ rfl) else .isFalse fun q => e (Expr.hole.inj q)
    | .node t o s as, .node t' o' s' bs =>
      if e : t = t' ∧ o = o' ∧ s = s' then
        match Expr.decEqList as bs with
        | .isTrue q => .isTrue (by simp [e, q])
        | .isFalse q => .isFalse (by simp [q])
      else .isFalse fun q => e (by cases q; exact ⟨rfl, rfl, rfl⟩)
    | .choose t w a b s, .choose t' w' a' b' s' =>
      if e : t = t' ∧ w = w' ∧ s = s' then
        match Expr.decEq a a', Expr.decEq b b' with
        | .isTrue p, .isTrue q => .isTrue (by simp [e, p, q])
        | .isFalse p, _ => .isFalse (by simp [p])
        | _, .isFalse p => .isFalse (by simp [p])
      else .isFalse fun q => e (by cases q; exact ⟨rfl, rfl, rfl⟩)
    | .hole _, .node .. => .isFalse (by simp)
    | .hole _, .choose .. => .isFalse (by simp)
    | .node .., .hole _ => .isFalse (by simp)
    | .node .., .choose .. => .isFalse (by simp)
    | .choose .., .hole _ => .isFalse (by simp)
    | .choose .., .node .. => .isFalse (by simp)

/-- Equality of lists of nodes. -/
protected def decEqList (xs ys : List Expr) : Decidable (xs = ys) :=
  match xs, ys with
  | [], [] => .isTrue rfl
  | [], _ :: _ => .isFalse (by simp)
  | _ :: _, [] => .isFalse (by simp)
  | x :: xs, y :: ys =>
    match Expr.decEq x y with
    | .isFalse p => .isFalse (by simp [p])
    | .isTrue p =>
      match Expr.decEqList xs ys with
      | .isTrue q => .isTrue (by simp [p, q])
      | .isFalse q => .isFalse (by simp [q])
end

instance : DecidableEq Expr := Expr.decEq

instance : Hashable Expr := ⟨fun e => hash e.tag⟩

@[simp] theorem shape_hole (h : Hole) : (hole h).shape = .word h.width := rfl

@[simp] theorem shape_node (t : Nat) (op : Op) (s : Shape) (args : List Expr) :
    (node t op s args).shape = s := rfl

@[simp] theorem shape_choose (t w : Nat) (a b : Expr) (s : Hole) :
    (choose t w a b s).shape = .word w := rfl

@[simp] theorem children_hole (h : Hole) : (hole h).children = [] := rfl

@[simp] theorem children_node (t : Nat) (op : Op) (s : Shape) (args : List Expr) :
    (node t op s args).children = args := rfl

@[simp] theorem children_choose (t w : Nat) (a b : Expr) (s : Hole) :
    (choose t w a b s).children = [a, b, hole s] := rfl

/-- Induction over expressions, with a hypothesis for every operand of an operation. -/
@[elab_as_elim]
theorem induction {motive : Expr → Prop} (hole : ∀ h, motive (.hole h))
    (node : ∀ t op s args, (∀ a ∈ args, motive a) → motive (.node t op s args))
    (choose : ∀ t w a b s, motive a → motive b → motive (.choose t w a b s)) :
    ∀ e, motive e
  | .hole h => hole h
  | .node t op s args => node t op s args fun a ha =>
      have : sizeOf a < sizeOf args := List.sizeOf_lt_of_mem ha
      induction hole node choose a
  | .choose t w a b s =>
      choose t w a b s (induction hole node choose a) (induction hole node choose b)

theorem sizeOf_lt_of_mem_children {d e : Expr} (h : d ∈ e.children) : sizeOf d < sizeOf e := by
  cases e with
  | hole h => simp at h
  | node t op s args =>
    have hargs : sizeOf d < sizeOf args := List.sizeOf_lt_of_mem h
    rw [node.sizeOf_spec]
    omega
  | choose t w a b s =>
    rw [children_choose, List.mem_cons, List.mem_cons, List.mem_singleton] at h
    rw [choose.sizeOf_spec]
    rcases h with rfl | rfl | rfl
    · omega
    · omega
    · rw [hole.sizeOf_spec]
      have ha : 0 < sizeOf a := by
        cases a <;> simp only [hole.sizeOf_spec, node.sizeOf_spec, choose.sizeOf_spec] <;> omega
      omega

end Expr
end CircuitSketch
