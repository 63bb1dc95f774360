import CircuitSketch.Expr.ShapeError
import CircuitSketch.Expr.Basic
import Std.Data.HashSet

/-!
# Walking an expression

A walk lists the nodes of an expression, each once, in the order in which a reading from the top and
from left to right first meets them. `Expr.preorder` is that reading with every repetition left in;
it can be exponentially longer than the expression. `Expr.walk` enters a node only the first time.
-/
namespace CircuitSketch

namespace Expr

mutual
/-- Every occurrence of every node, a node before what it refers to. -/
def preorder : Expr → List Expr
  | hole h => [hole h]
  | node t op s args => node t op s args :: preorderAll args
  | choose t w a b s => choose t w a b s :: (preorder a ++ (preorder b ++ [hole s]))

/-- The occurrences in several expressions, one after the other. -/
def preorderAll : List Expr → List Expr
  | [] => []
  | e :: rest => preorder e ++ preorderAll rest
end

theorem mem_preorderAll {x : Expr} {es : List Expr} :
    x ∈ preorderAll es ↔ ∃ e ∈ es, x ∈ e.preorder := by
  induction es with
  | nil => simp [preorderAll]
  | cons e es ih => simp [preorderAll, ih]

@[simp] theorem mem_preorder_hole {x : Expr} {h : Hole} :
    x ∈ (hole h).preorder ↔ x = hole h := by simp [preorder]

@[simp] theorem mem_preorder_node {x : Expr} {t : Nat} {op : Op} {s : Shape} {args : List Expr} :
    x ∈ (node t op s args).preorder ↔ x = node t op s args ∨ ∃ a ∈ args, x ∈ a.preorder := by
  simp [preorder, mem_preorderAll]

@[simp] theorem mem_preorder_choose {x : Expr} {t w : Nat} {a b : Expr} {s : Hole} :
    x ∈ (choose t w a b s).preorder ↔
      x = choose t w a b s ∨ x ∈ a.preorder ∨ x ∈ b.preorder ∨ x = hole s := by
  simp [preorder]

theorem mem_preorder_self (e : Expr) : e ∈ e.preorder := by cases e <;> simp

/-- Whatever occurs in a node that occurs in an expression occurs in the expression. -/
theorem mem_preorder_trans {x y e : Expr} (hx : x ∈ y.preorder) (hy : y ∈ e.preorder) :
    x ∈ e.preorder := by
  induction e using Expr.induction with
  | hole h =>
    rw [mem_preorder_hole] at hy
    exact hy ▸ hx
  | node t op s args ih =>
    rcases mem_preorder_node.mp hy with rfl | ⟨a, ha, hya⟩
    · exact hx
    · exact mem_preorder_node.mpr (.inr ⟨a, ha, ih a ha hya⟩)
  | choose t w a b s iha ihb =>
    rcases mem_preorder_choose.mp hy with rfl | hya | hyb | rfl
    · exact hx
    · exact mem_preorder_choose.mpr (.inr (.inl (iha hya)))
    · exact mem_preorder_choose.mpr (.inr (.inr (.inl (ihb hyb))))
    · rw [mem_preorder_hole] at hx
      exact mem_preorder_choose.mpr (.inr (.inr (.inr hx)))

theorem mem_preorderAll_of_mem {x : Expr} {es : List Expr} (hx : x ∈ es) : x ∈ preorderAll es :=
  mem_preorderAll.mpr ⟨x, hx, x.mem_preorder_self⟩

theorem mem_preorderAll_trans {x y : Expr} {es : List Expr} (hx : x ∈ y.preorder)
    (hy : y ∈ preorderAll es) : x ∈ preorderAll es := by
  obtain ⟨e, he, hye⟩ := mem_preorderAll.mp hy
  exact mem_preorderAll.mpr ⟨e, he, mem_preorder_trans hx hye⟩

/-- Where all of several expressions occur in one, so does whatever occurs in them. -/
theorem mem_preorder_of_mem_preorderAll {x e : Expr} {es : List Expr} (hx : x ∈ preorderAll es)
    (h : ∀ y ∈ es, y ∈ e.preorder) : x ∈ e.preorder := by
  obtain ⟨y, hy, hxy⟩ := mem_preorderAll.mp hx
  exact mem_preorder_trans hxy (h y hy)

/-- With a node its children occur in an expression. -/
theorem mem_preorder_of_mem_children {d x e : Expr} (hd : d ∈ x.children) (hx : x ∈ e.preorder) :
    d ∈ e.preorder := by
  refine mem_preorder_trans ?_ hx
  cases x with
  | hole h => simp at hd
  | node t op s args => exact mem_preorder_node.mpr (.inr ⟨d, hd, d.mem_preorder_self⟩)
  | choose t w a b s =>
    rw [children_choose, List.mem_cons, List.mem_cons, List.mem_singleton] at hd
    rcases hd with rfl | rfl | rfl
    · exact mem_preorder_choose.mpr (.inr (.inl d.mem_preorder_self))
    · exact mem_preorder_choose.mpr (.inr (.inr (.inl d.mem_preorder_self)))
    · exact mem_preorder_choose.mpr (.inr (.inr (.inr rfl)))

end Expr

/-- The nodes met so far: `order` lists them with the latest first, `seen` holds the same nodes. -/
structure Visited where
  seen : Std.HashSet Expr
  order : List Expr

namespace Visited

/-- Nothing met yet. -/
def empty : Visited := ⟨∅, []⟩

/-- Notes a node. -/
def add (v : Visited) (e : Expr) : Visited := ⟨v.seen.insert e, e :: v.order⟩

mutual
/-- Reads an expression, skipping what has been met before. -/
def visit (v : Visited) (e : Expr) : Visited :=
  if v.seen.contains e then v
  else
    match e with
    | .hole _ => v.add e
    | .node _ _ _ args => visitAll (v.add e) args
    | .choose _ _ a b s =>
      let v := visit (visit (v.add e) a) b
      if v.seen.contains (.hole s) then v else v.add (.hole s)

/-- Reads several expressions, one after the other. -/
def visitAll (v : Visited) (es : List Expr) : Visited :=
  match es with
  | [] => v
  | e :: rest => visitAll (visit v e) rest
end

/-- The nodes met, first one first. -/
def toList (v : Visited) : List Expr := v.order.reverse

end Visited

namespace Expr

/-- The nodes of several expressions, each once, in the order in which they are first met. -/
def walkAll (es : List Expr) : List Expr := (Visited.empty.visitAll es).toList

/-- The nodes of an expression, each once, in the order in which they are first met. -/
def walk (e : Expr) : List Expr := (Visited.empty.visit e).toList

/-- The hole that a node is. -/
def asHole? : Expr → Option Hole
  | hole h => some h
  | _ => none

/-- The name and width of the variable that a node is. -/
def asVariable? : Expr → Option (String × Nat)
  | node _ (.var name w) _ _ => some (name, w)
  | _ => none

/-- The holes of an expression in the order in which they are first met. -/
def holes (e : Expr) : List Hole := e.walk.filterMap asHole?

/-- The selectors of the choices of an expression. -/
def selectors (e : Expr) : List Hole :=
  e.walk.filterMap fun
    | choose _ _ _ _ s => some s
    | _ => none

/-- Adds a variable to those known, unless its name is known with another width. -/
def addVariable (known : List (String × Nat)) (name : String) (width : Nat) :
    Except ShapeError (List (String × Nat)) :=
  match known.lookup name with
  | none => .ok (known ++ [(name, width)])
  | some first =>
    if first = width then .ok known else .error (.variableWidths name first width)

/-- The variables of an expression with their widths, in the order in which they are first met. One
name stands for one width. -/
def freeVars (e : Expr) : Except ShapeError (List (String × Nat)) :=
  (e.walk.filterMap asVariable?).foldlM (fun known v => addVariable known v.1 v.2) []

/-- A placed primitive: its module, its wired ports and its declared outputs. -/
structure Instance where
  module : String
  ports : List (String × Expr)
  outputs : List (String × Nat)

/-- The primitive that a node places. -/
def asInstance? : Expr → Option Instance
  | node _ (.primitive module ports outputs) _ args => some ⟨module, ports.zip args, outputs⟩
  | _ => none

/-- The primitives placed in an expression, all of them or those of one module. -/
def instances (e : Expr) (module : Option String) : List Instance :=
  (e.walk.filterMap asInstance?).filter fun i =>
    match module with
    | none => true
    | some m => i.module == m

/-- What is wired to a port of a placed primitive; the first port of that name counts. -/
def Instance.port? (i : Instance) (name : String) : Option Expr := i.ports.lookup name

end Expr
end CircuitSketch
