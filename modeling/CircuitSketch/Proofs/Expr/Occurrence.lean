import CircuitSketch.Expr.Walk
import Mathlib.Algebra.Order.Ring.Int
import Mathlib.Data.List.Nodup

/-!
# The nodes that occur in an expression

`Expr.preorder` lists every occurrence of every node. A walk, which enters a node only once, lists
the same nodes in the order of their first occurrences: `Expr.walk` is the preorder without its
repetitions. Holes and variables are read off a walk, so each of them is listed once exactly when
it occurs.
-/
namespace CircuitSketch

namespace Visited

/-- Notes a node unless it has been met. -/
def meet (v : Visited) (e : Expr) : Visited := if v.seen.contains e then v else v.add e

/-- Every seen node of size at most `n` has been entered: all that occurs in it is seen. Larger seen
nodes may be on the way. -/
def Closed (n : Nat) (v : Visited) : Prop :=
  ∀ x, v.seen.contains x → sizeOf x ≤ n → ∀ y ∈ x.preorder, v.seen.contains y

theorem Closed.mono {m n : Nat} {v : Visited} (h : v.Closed n) (le : m ≤ n) : v.Closed m :=
  fun x hx hm => h x hx (hm.trans le)

theorem closed_empty (n : Nat) : empty.Closed n := by simp [Closed, empty]

theorem seen_add {v : Visited} {e x : Expr} :
    (v.add e).seen.contains x ↔ e = x ∨ v.seen.contains x := by
  simp [add, Std.HashSet.contains_insert]

theorem seen_meet {v : Visited} {e x : Expr} :
    (v.meet e).seen.contains x ↔ e = x ∨ v.seen.contains x := by
  unfold meet
  split
  · next h =>
    constructor
    · exact .inr
    · rintro (rfl | hx)
      · exact h
      · exact hx
  · exact seen_add

theorem seen_foldl_meet {v : Visited} {es : List Expr} {x : Expr} :
    (es.foldl meet v).seen.contains x ↔ x ∈ es ∨ v.seen.contains x := by
  induction es generalizing v with
  | nil => simp
  | cons e es ih =>
    simp only [List.foldl_cons, ih, seen_meet, List.mem_cons]
    constructor
    · rintro (h | rfl | h)
      · exact .inl (.inr h)
      · exact .inl (.inl rfl)
      · exact .inr h
    · rintro ((rfl | h) | h)
      · exact .inr (.inl rfl)
      · exact .inl h
      · exact .inr (.inr h)

/-- Meeting nodes that have all been met changes nothing. -/
theorem foldl_meet_of_seen {v : Visited} {es : List Expr}
    (h : ∀ e ∈ es, v.seen.contains e) : es.foldl meet v = v := by
  induction es with
  | nil => rfl
  | cons e es ih =>
    have he : v.meet e = v := if_pos (h e (by simp))
    rw [List.foldl_cons, he]
    exact ih fun x hx => h x (by simp [hx])

/-- Meeting all that occurs in an expression leaves entered nodes entered. -/
theorem Closed.foldl_meet {n : Nat} {v : Visited} (h : v.Closed n) (e : Expr) :
    (e.preorder.foldl meet v).Closed n := by
  intro x hx hn y hy
  rw [seen_foldl_meet] at hx ⊢
  rcases hx with hx | hx
  · exact .inl (Expr.mem_preorder_trans hy hx)
  · exact .inr (h x hx hn y hy)

/-- Reading several expressions meets their occurrences one after the other, if reading each of
them does. -/
theorem visitAll_eq_foldl {n : Nat} {es : List Expr}
    (ih : ∀ e ∈ es, ∀ v : Visited, v.Closed n → v.visit e = e.preorder.foldl meet v)
    (v : Visited) (hv : v.Closed n) :
    v.visitAll es = (Expr.preorderAll es).foldl meet v := by
  induction es generalizing v with
  | nil => simp [visitAll, Expr.preorderAll]
  | cons e es ihes =>
    have he := ih e (by simp) v hv
    have hes := ihes (fun x hx => ih x (by simp [hx])) _ (hv.foldl_meet e)
    simp only [visitAll, Expr.preorderAll, List.foldl_append]
    rw [he, hes]

/-- A new node is larger than what is below it, so adding it leaves the entered ones entered. -/
theorem Closed.add {m n : Nat} {v : Visited} {e : Expr} (h : v.Closed n) (le : m ≤ n)
    (hm : m < sizeOf e) : (v.add e).Closed m := by
  intro x hx hxm y hy
  rw [seen_add] at hx ⊢
  rcases hx with rfl | hx
  · omega
  · exact .inr (h x hx (hxm.trans le) y hy)

/-- Reading an expression meets all of its occurrences in order: a part that is skipped because it
was met before has nothing new in it. -/
theorem visit_eq_foldl (e : Expr) (v : Visited) (hv : v.Closed (sizeOf e)) :
    v.visit e = e.preorder.foldl meet v := by
  induction e using Expr.induction generalizing v with
  | hole h =>
    unfold visit
    simp [Expr.preorder, meet]
  | node t op s args ih =>
    rw [visit]
    split
    · next hs => exact (foldl_meet_of_seen (hv _ hs le_rfl)).symm
    · next hs =>
      have hsize : sizeOf args < sizeOf (Expr.node t op s args) := by
        simp only [Expr.node.sizeOf_spec]
        omega
      have hall := visitAll_eq_foldl (n := sizeOf args)
        (fun a ha w hw => ih a ha w (hw.mono (List.sizeOf_lt_of_mem ha).le))
        (v.add (.node t op s args)) (hv.add hsize.le hsize)
      rw [hall]
      simp [Expr.preorder, meet, hs]
  | choose t w a b s iha ihb =>
    rw [visit]
    split
    · next hs => exact (foldl_meet_of_seen (hv _ hs le_rfl)).symm
    · next hs =>
      have hsize : sizeOf a + sizeOf b < sizeOf (Expr.choose t w a b s) := by
        simp only [Expr.choose.sizeOf_spec]
        omega
      have hadd := hv.add (e := .choose t w a b s) hsize.le hsize
      have ha := iha _ (hadd.mono (by omega))
      have hb := ihb _ ((hadd.foldl_meet a).mono (by omega))
      simp only [ha, hb]
      simp [Expr.preorder, meet, hs]

/-- Nodes are met in the order of their first occurrences. -/
theorem order_foldl_meet (v : Visited) (es : List Expr) :
    (es.foldl meet v).order.reverse =
      v.order.reverse ++ (es.filter fun x => !v.seen.contains x).eraseDups := by
  induction es generalizing v with
  | nil => simp
  | cons e es ih =>
    rw [List.foldl_cons, ih]
    by_cases h : v.seen.contains e
    · simp [meet, h]
    · have hfilter : (es.filter fun x => !(v.add e).seen.contains x) =
          (es.filter fun x => !v.seen.contains x).filter fun x => !(x == e) := by
        rw [List.filter_filter]
        apply List.filter_congr
        intro x _
        simp [add, Std.HashSet.contains_insert, Bool.beq_comm]
      have hmeet : v.meet e = v.add e := if_neg h
      rw [hmeet, hfilter, List.filter_cons_of_pos (by simpa using h), List.eraseDups_cons]
      simp [add]

end Visited

theorem nodup_eraseDups {α : Type} [BEq α] [LawfulBEq α] (es : List α) : es.eraseDups.Nodup := by
  induction hn : es.length using Nat.strong_induction_on generalizing es with
  | _ n ih =>
    cases es with
    | nil => simp
    | cons e es =>
      have hlt : (es.filter fun x => !x == e).length < n := by
        rw [← hn]
        exact Nat.lt_succ_of_le (List.length_filter_le _ _)
      rw [List.eraseDups_cons, List.nodup_cons]
      exact ⟨by simp, ih _ hlt _ rfl⟩

namespace Expr

/-- A walk lists the nodes in the order of their first occurrences. -/
theorem walk_eq_eraseDups (e : Expr) : e.walk = e.preorder.eraseDups := by
  have h := Visited.visit_eq_foldl e .empty (Visited.closed_empty _)
  rw [walk, h, Visited.toList, Visited.order_foldl_meet]
  simp [Visited.empty]

theorem mem_walk {x e : Expr} : x ∈ e.walk ↔ x ∈ e.preorder := by simp [walk_eq_eraseDups]

theorem nodup_walk (e : Expr) : e.walk.Nodup := by
  rw [walk_eq_eraseDups]
  exact nodup_eraseDups _

theorem asHole?_eq_some {x : Expr} {h : Hole} : x.asHole? = some h ↔ x = hole h := by
  cases x <;> simp [asHole?]

theorem mem_holes {h : Hole} {e : Expr} : h ∈ e.holes ↔ hole h ∈ e.preorder := by
  simp [holes, mem_walk, asHole?_eq_some]

@[simp] theorem mem_holes_hole {k h : Hole} : k ∈ (hole h).holes ↔ k = h := by
  rw [mem_holes, mem_preorder_hole, Expr.hole.injEq]

theorem mem_holes_node {k : Hole} {t : Nat} {op : Op} {s : Shape} {args : List Expr} :
    k ∈ (node t op s args).holes ↔ ∃ a ∈ args, k ∈ a.holes := by
  simp only [mem_holes, mem_preorder_node, reduceCtorEq, false_or]

theorem nodup_holes (e : Expr) : e.holes.Nodup := by
  apply e.nodup_walk.filterMap
  intro x y h hx hy
  rw [Option.mem_def, asHole?_eq_some] at hx hy
  rw [hx, hy]

end Expr
end CircuitSketch
