import CircuitSketch.Arrangement
import CircuitSketch.Proofs.Evaluation.Settled
import CircuitSketch.Proofs.Expr.Cutting

/-!
# Arrangements picked by holes

The trees of choices between several candidates are different ones on the way to the physical side
and on the way back, over different expressions. What a tree picks depends on the selectors and on
the number of the candidates only, so both ways follow the same arrangement.
-/
namespace CircuitSketch

open CircuitSketch.Expr Build

/-- The same relation between the leaves of two nests of one form. -/
inductive Nest.Lift (R : Expr → Expr → Prop) : Nest → Nest → Prop
  | leaf {a b : Expr} (h : R a b) : Lift R (.leaf a) (.leaf b)
  | nil : Lift R (.list []) (.list [])
  | cons {a b : Nest} {as bs : List Nest} (head : Lift R a b)
      (tail : Lift R (.list as) (.list bs)) : Lift R (.list (a :: as)) (.list (b :: bs))

/-- Every leaf of a nest has a property. -/
inductive Nest.All (P : Expr → Prop) : Nest → Prop
  | leaf {a : Expr} (h : P a) : All P (.leaf a)
  | nil : All P (.list [])
  | cons {a : Nest} {as : List Nest} (head : All P a) (tail : All P (.list as)) :
      All P (.list (a :: as))

/-- Each of some selectors has a given bit. -/
def Context.Selects (c : Context Bool) (ss : List Hole) (τ : Hole → Bool) : Prop :=
  ∀ s ∈ ss, selectorBit c s = .ok (τ s)

/-- Two expressions evaluate alike wherever each of some selectors has a given bit. -/
def SameValue (ss : List Hole) (τ : Hole → Bool) (x y : Expr) : Prop :=
  ∀ c : Context Bool, c.Selects ss τ → eval c y = eval c x

theorem SameValue.refl (ss : List Hole) (τ : Hole → Bool) (x : Expr) : SameValue ss τ x x :=
  fun _ _ => rfl

/-- Rows of expressions as positions. -/
def Nest.rows (rows : List (List Expr)) : List Nest := rows.map fun row => .list (row.map .leaf)

namespace Nest

variable {R S : Expr → Expr → Prop} {P Q : Expr → Prop} {a b : Nest} {as bs : List Nest}
  {e : Expr}

theorem lift_list : Lift R (.list as) b ↔ ∃ bs, b = .list bs ∧ List.Forall₂ (Lift R) as bs := by
  constructor
  · intro h
    induction as generalizing b with
    | nil =>
      cases h
      exact ⟨[], rfl, .nil⟩
    | cons a as ih =>
      cases h with
      | cons head tail =>
        obtain ⟨rest, hrest, hall⟩ := ih tail
        cases hrest
        exact ⟨_, rfl, .cons head hall⟩
  · rintro ⟨bs, rfl, h⟩
    induction h with
    | nil => exact .nil
    | cons head _ ih => exact .cons head ih

theorem lift_leaf : Lift R (.leaf e) b ↔ ∃ y, b = .leaf y ∧ R e y := by
  constructor
  · intro h
    cases h with
    | leaf h => exact ⟨_, rfl, h⟩
  · rintro ⟨y, rfl, h⟩
    exact .leaf h

theorem all_list : All P (.list as) ↔ ∀ a ∈ as, All P a := by
  constructor
  · intro h
    induction as with
    | nil => simp
    | cons a as ih =>
      cases h with
      | cons head tail => simpa using ⟨head, ih tail⟩
  · intro h
    induction as with
    | nil => exact .nil
    | cons a as ih => exact .cons (h a (by simp)) (ih fun b hb => h b (by simp [hb]))

theorem all_leaf : All P (.leaf e) ↔ P e :=
  ⟨fun h => by cases h with | leaf h => exact h, .leaf⟩

/-- What is related to a row of leaves is a row of leaves. -/
theorem lift_row {row : List Expr} :
    Lift R (.list (row.map .leaf)) b ↔
      ∃ row', b = .list (row'.map .leaf) ∧ List.Forall₂ R row row' := by
  rw [lift_list]
  constructor
  · rintro ⟨bs, rfl, h⟩
    rw [List.forall₂_map_left_iff] at h
    induction h with
    | nil => exact ⟨[], rfl, .nil⟩
    | cons head _ ih =>
      obtain ⟨y, rfl, hy⟩ := lift_leaf.mp head
      obtain ⟨row', hrow, hall⟩ := ih
      rw [list.injEq] at hrow
      exact ⟨y :: row', by rw [hrow, List.map_cons], .cons hy hall⟩
  · rintro ⟨row', rfl, h⟩
    refine ⟨_, rfl, ?_⟩
    rw [List.forall₂_map_left_iff, List.forall₂_map_right_iff]
    exact h.imp fun _ _ h => .leaf h

/-- What is related to rows is rows of the same lengths. -/
theorem lift_rows {rs : List (List Expr)} :
    Lift R (.list (rows rs)) b ↔
      ∃ rs', b = .list (rows rs') ∧ List.Forall₂ (List.Forall₂ R) rs rs' := by
  rw [lift_list, rows]
  constructor
  · rintro ⟨bs, rfl, h⟩
    rw [List.forall₂_map_left_iff] at h
    induction h with
    | nil => exact ⟨[], rfl, .nil⟩
    | cons head _ ih =>
      obtain ⟨row', rfl, hrow⟩ := lift_row.mp head
      obtain ⟨rs', hrs, hall⟩ := ih
      rw [list.injEq] at hrs
      exact ⟨row' :: rs', by rw [hrs, rows, rows, List.map_cons], .cons hrow hall⟩
  · rintro ⟨rs', rfl, h⟩
    refine ⟨_, rfl, ?_⟩
    rw [rows, List.forall₂_map_left_iff, List.forall₂_map_right_iff]
    exact h.imp fun _ _ h => lift_row.mpr ⟨_, rfl, h⟩

theorem rows_injective {rs rs' : List (List Expr)} (h : rows rs = rows rs') : rs = rs' := by
  have hrow : Function.Injective fun row : List Expr => Nest.list (row.map .leaf) := by
    intro r r' hr
    rw [list.injEq] at hr
    exact List.map_injective_iff.mpr (fun x y hxy => by rwa [leaf.injEq] at hxy) hr
  exact List.map_injective_iff.mpr hrow h

theorem lift_rows_rows {rs rs' : List (List Expr)} :
    Lift R (.list (rows rs)) (.list (rows rs')) ↔ List.Forall₂ (List.Forall₂ R) rs rs' := by
  rw [lift_rows]
  constructor
  · rintro ⟨rs'', hrs, h⟩
    rw [list.injEq] at hrs
    rwa [rows_injective hrs]
  · exact fun h => ⟨rs', rfl, h⟩

theorem all_rows {rs : List (List Expr)} :
    All P (.list (rows rs)) ↔ ∀ row ∈ rs, ∀ x ∈ row, P x := by
  simp [rows, all_list, all_leaf]

end Nest

namespace ArrangementChoice

open Nest

variable {τ : Hole → Bool} {s : Hole} {ss : List Hole} {xs ys : List Expr} {y : Expr}
  {w next : Nat}

/-- The number of the candidate that selectors pick: one bit of it on each level, and a candidate
without a neighbour stays. -/
def pickedIndex (τ : Hole → Bool) : List Hole → Nat → Nat
  | [], _ => 0
  | s :: ss, count =>
    if count ≤ 1 then 0
    else min (2 * pickedIndex τ ss ((count + 1) / 2) + (τ s).toNat) (count - 1)

theorem pickedIndex_one : pickedIndex τ ss 1 = 0 := by cases ss <;> rfl

/-- One candidate that choices pick among several. -/
structure Picked (ss : List Hole) (index : (Hole → Bool) → Nat) (xs : List Expr) (y : Expr) :
    Prop where
  shape : ∀ x ∈ xs, y.shape = x.shape
  grown : y.Grown (· ∈ xs) (fun _ => False) (· ∈ ss)
  uses : ∀ x ∈ xs, x ∈ y.preorder
  eval : ∀ τ, ∃ x, xs[index τ]? = some x ∧ SameValue ss τ x y

theorem picked_self (ss : List Hole) (x : Expr) : Picked ss (fun τ => pickedIndex τ ss 1) [x] x where
  shape := by simp
  grown := .operand (by simp)
  uses := by simp [mem_preorder_self]
  eval τ := ⟨x, by rw [pickedIndex_one]; rfl, .refl ss τ x⟩

/-- What one level of choices makes of neighbouring pairs. -/
structure PickedPairs (s : Hole) (xs ys : List Expr) : Prop where
  length : ys.length = (xs.length + 1) / 2
  shape : ∀ y ∈ ys, ∀ x ∈ xs, y.shape = x.shape
  grown : ∀ y ∈ ys, y.Grown (· ∈ xs) (fun _ => False) (· = s)
  uses : ∀ x ∈ xs, x ∈ preorderAll ys
  eval : ∀ τ j y, ys[j]? = some y →
    ∃ x, xs[min (2 * j + (τ s).toNat) (xs.length - 1)]? = some x ∧ SameValue [s] τ x y

theorem grown_pair {t : Nat} {a b : Expr} (hs : s.width = 1) (ha : a.shape = .word w)
    (hb : b.shape = .word w) :
    (choose t w a b s).Grown (· ∈ [a, b]) (fun _ => False) (· = s) :=
  .choice ha hb hs rfl (.operand (by simp)) (.operand (by simp))

/-- Two neighbours in front of what one level makes of the others. -/
theorem PickedPairs.cons {a b : Expr} (h : PickedPairs s xs ys) (hab : b.shape = a.shape)
    (hrest : ∀ x ∈ xs, x.shape = a.shape) (shape : y.shape = a.shape)
    (grown : y.Grown (· ∈ [a, b]) (fun _ => False) (· = s)) (left : a ∈ y.preorder)
    (right : b ∈ y.preorder) (eval : ∀ τ, SameValue [s] τ (if τ s then b else a) y) :
    PickedPairs s (a :: b :: xs) (y :: ys) where
  length := by
    simp only [List.length_cons, h.length]
    omega
  shape := by
    have hall : ∀ x ∈ a :: b :: xs, x.shape = a.shape := by simpa using ⟨hab, hrest⟩
    have hys : ∀ z ∈ ys, z.shape = a.shape := by
      intro z hz
      have hlen : xs ≠ [] := by
        rintro rfl
        have hzero : ys.length = 0 := by simpa using h.length
        rw [List.length_eq_zero_iff.mp hzero] at hz
        cases hz
      obtain ⟨x, rest, rfl⟩ := List.exists_cons_of_ne_nil hlen
      rw [h.shape z hz x (by simp)]
      exact hrest x (by simp)
    intro z hz x hx
    rw [hall x hx]
    rcases List.mem_cons.mp hz with rfl | hz
    · exact shape
    · exact hys z hz
  grown := by
    intro z hz
    rcases List.mem_cons.mp hz with rfl | hz
    · exact grown.mono (by simp) (fun _ h => h) (fun _ h => h)
    · exact (h.grown z hz).mono (by simp; tauto) (fun _ h => h) (fun _ h => h)
  uses := by
    intro x hx
    rw [mem_preorderAll]
    rcases List.mem_cons.mp hx with rfl | hx
    · exact ⟨y, by simp, left⟩
    rcases List.mem_cons.mp hx with rfl | hx
    · exact ⟨y, by simp, right⟩
    · obtain ⟨z, hz, hxz⟩ := mem_preorderAll.mp (h.uses x hx)
      exact ⟨z, by simp [hz], hxz⟩
  eval := by
    intro τ j z hz
    cases j with
    | zero =>
      rw [List.getElem?_cons_zero, Option.some.injEq] at hz
      subst hz
      have := eval τ
      cases hτ : τ s with
      | false => exact ⟨a, by simp, by simpa [hτ] using this⟩
      | true => exact ⟨b, by simp, by simpa [hτ] using this⟩
    | succ j =>
      rw [List.getElem?_cons_succ] at hz
      obtain ⟨x, hx, hval⟩ := h.eval τ j z hz
      refine ⟨x, ?_, hval⟩
      have hne : xs.length ≠ 0 := by
        intro hzero
        rw [List.length_eq_zero_iff.mp hzero] at hx
        cases hx
      rw [← hx]
      have hshift : min (2 * (j + 1) + (τ s).toNat) ((a :: b :: xs).length - 1) =
          min (2 * j + (τ s).toNat) (xs.length - 1) + 2 := by
        simp only [List.length_cons]
        omega
      rw [hshift]
      rfl

theorem choosePair_of_shape {a b : Expr} (hs : s.width = 1) (ha : a.shape = .word w)
    (hb : b.shape = .word w) :
    choosePair s (.leaf a) (.leaf b) next = .ok (.leaf (choose next w a b s), next + 1) := by
  have hword {e : Expr} (he : e.shape = .word w) :
      (liftM ((Operand.expr e).word .choose) : Build ShapeError Expr) next = .ok (e, next) := by
    rw [Operand.word, if_pos (isWord_of_shape he)]
    rfl
  have hrun : Checked.choose (.expr a) (.expr b) (.expr (.hole s)) next =
      .ok (choose next w a b s, next + 1) := by
    rw [Checked.choose, bind_of_ok (hword ha), bind_of_ok (hword hb), width_of_shape ha,
      width_of_shape hb, if_pos rfl]
    simp only [hs, if_true]
    rw [Build.chooseBy, width_of_shape ha]
  rw [choosePair, Nest.operand, Nest.operand, hrun]

/-- One level of choices among words of one width. -/
theorem pickPairs_spec (hs : s.width = 1) :
    ∀ (xs : List Expr) (next : Nat), (∀ x ∈ xs, x.shape = .word w) →
      ∃ ys last, pickPairs s (xs.map .leaf) next = .ok (ys.map .leaf, last) ∧ next ≤ last ∧
        PickedPairs s xs ys
  | [], next, _ => ⟨[], next, rfl, le_rfl, rfl, by simp, by simp, by simp, by simp⟩
  | [x], next, _ => by
    refine ⟨[x], next, rfl, le_rfl, by simp, by simp, ?_,
      by simp [preorderAll, mem_preorder_self], ?_⟩
    · intro y hy
      exact .operand hy
    · intro τ j y hy
      cases j with
      | zero =>
        rw [List.getElem?_cons_zero, Option.some.injEq] at hy
        exact ⟨x, by simp, hy ▸ .refl [s] τ x⟩
      | succ j => simp at hy
  | a :: b :: rest, next, hxs => by
    have ha : a.shape = .word w := hxs a (by simp)
    have hb : b.shape = .word w := hxs b (by simp)
    have hrest : ∀ x ∈ rest, x.shape = .word w := fun x hx => hxs x (by simp [hx])
    have hshape : ∀ x ∈ rest, x.shape = a.shape := fun x hx => (hrest x hx).trans ha.symm
    by_cases hab : a = b
    · obtain ⟨ys, last, hys, hle, hpairs⟩ := pickPairs_spec hs rest next hrest
      have hrun : pickPairs s ((a :: b :: rest).map .leaf) next =
          .ok ((a :: ys).map .leaf, last) := by
        have hsame : (Nest.leaf a).isSame (.leaf b) = true := by simp [Nest.isSame, hab]
        simp only [List.map_cons, pickPairs, hsame, if_true]
        rw [bind_of_ok (show (pure (Nest.leaf a) : Build Refusal Nest) next = _ from rfl),
          bind_of_ok hys]
        rfl
      refine ⟨_, last, hrun, hle, hpairs.cons (hb.trans ha.symm) hshape rfl (.operand (by simp))
        (mem_preorder_self a) (hab ▸ mem_preorder_self a) fun τ => ?_⟩
      rw [← hab, ite_self]
      exact .refl [s] τ a
    · obtain ⟨ys, last, hys, hle, hpairs⟩ := pickPairs_spec hs rest (next + 1) hrest
      have hrun : pickPairs s ((a :: b :: rest).map .leaf) next =
          .ok ((choose next w a b s :: ys).map .leaf, last) := by
        have hsame : (Nest.leaf a).isSame (.leaf b) = false := by simp [Nest.isSame, hab]
        simp only [List.map_cons, pickPairs, hsame, Bool.false_eq_true, if_false]
        rw [bind_of_ok (choosePair_of_shape hs ha hb), bind_of_ok hys]
        rfl
      refine ⟨_, last, hrun, by omega, hpairs.cons (hb.trans ha.symm) hshape (by rw [ha]; rfl)
        (grown_pair hs ha hb) (by simp [mem_preorder_self]) (by simp [mem_preorder_self])
        fun τ c hc => ?_⟩
      rw [eval_choose_of_bit (hc s (by simp))]
      cases τ s <;> rfl

/-- A candidate picked from what one level has left. -/
theorem Picked.of_pairs {count : Nat} (hcount : xs.length = count) (two : 2 ≤ count)
    (pairs : PickedPairs s xs ys)
    (h : Picked ss (fun τ => pickedIndex τ ss ys.length) ys y) :
    Picked (s :: ss) (fun τ => pickedIndex τ (s :: ss) count) xs y where
  shape x hx := by
    obtain ⟨z, hz, -⟩ := mem_preorderAll.mp (pairs.uses x hx)
    rw [h.shape z hz, pairs.shape z hz x hx]
  grown := h.grown.trans
    (fun z hz => (pairs.grown z hz).mono (fun _ h => h) (fun _ h => h) (by simp))
    (fun _ h => h) (by simp +contextual)
  uses x hx := by
    exact mem_preorder_of_mem_preorderAll (pairs.uses x hx) h.uses
  eval τ := by
    obtain ⟨z, hz, hvalue⟩ := h.eval τ
    obtain ⟨x, hx, hpair⟩ := pairs.eval τ _ z hz
    refine ⟨x, ?_, fun c hc => (hvalue c fun k hk => hc k (by simp [hk])).trans
      (hpair c fun k hk => hc k (by simp_all))⟩
    rw [← hx, pickedIndex, if_neg (by omega), pairs.length, hcount]

/-- Enough selectors pick one of several words of one width. -/
theorem pick_spec (hss : ∀ s ∈ ss, s.width = 1) (hxs : ∀ x ∈ xs, x.shape = .word w)
    (ne : xs ≠ []) (few : xs.length ≤ twoPow ss.length) (next : Nat) :
    ∃ y last, pick ss (xs.map .leaf) next = .ok (.leaf y, last) ∧ next ≤ last ∧
      Picked ss (fun τ => pickedIndex τ ss xs.length) xs y := by
  induction ss generalizing xs next with
  | nil =>
    obtain ⟨x, rest, rfl⟩ := List.exists_cons_of_ne_nil ne
    obtain rfl : rest = [] := by
      have hone : (x :: rest).length ≤ 1 := few
      simpa using hone
    exact ⟨x, next, rfl, le_rfl, picked_self [] x⟩
  | cons s ss ih =>
    obtain ⟨x, rest, rfl⟩ := List.exists_cons_of_ne_nil ne
    cases rest with
    | nil => exact ⟨x, next, rfl, le_rfl, picked_self _ x⟩
    | cons x' rest =>
      obtain ⟨ys, mid, hpairs, hle, hspec⟩ :=
        pickPairs_spec (hss s (by simp)) (x :: x' :: rest) next hxs
      have hlen := hspec.length
      simp only [List.length_cons] at hlen
      have hys : ∀ y ∈ ys, y.shape = .word w := fun y hy =>
        (hspec.shape y hy x (by simp)).trans (hxs x (by simp))
      have hne : ys ≠ [] := by
        rintro rfl
        simp at hlen
        omega
      have hfew : ys.length ≤ twoPow ss.length := by
        have htwo : rest.length + 1 + 1 ≤ twoPow ss.length * 2 := by
          simpa [twoPow_succ, Nat.mul_comm] using few
        omega
      obtain ⟨y, last, hy, hle', hpicked⟩ :=
        ih (fun t ht => hss t (by simp [ht])) hys hne hfew mid
      refine ⟨y, last, ?_, hle.trans hle', .of_pairs rfl (by simp) hspec hpicked⟩
      rw [List.map_cons, List.map_cons, pick]
      · exact (bind_of_ok hpairs).trans hy
      · simp

/-- Selectors that encode the number of a candidate pick it. -/
theorem pickedIndex_eq_toNat {count : Nat} (h : Word.toNat (ss.map τ) < count) :
    pickedIndex τ ss count = Word.toNat (ss.map τ) := by
  induction ss generalizing count with
  | nil => rfl
  | cons s ss ih =>
    rw [List.map_cons, Word.toNat_cons] at h ⊢
    rw [pickedIndex]
    split
    · omega
    · rw [ih (by omega)]
      omega

theorem pickedIndex_lt {count : Nat} (pos : 0 < count) : pickedIndex τ ss count < count := by
  cases ss with
  | nil => exact pos
  | cons s ss =>
    rw [pickedIndex]
    split
    · exact pos
    · omega

/-- A nest picked leaf by leaf, with one index for all of its leaves. -/
structure PickedNest (ss : List Hole) (index : (Hole → Bool) → Nat) (candidates : List Nest)
    (r : Nest) : Prop where
  uses : ∀ c ∈ candidates, c.Lift (fun x y => y.shape = x.shape ∧ x ∈ y.preorder) r
  grown : ∀ P, (∀ c ∈ candidates, c.All P) →
    r.All fun y => y.Grown P (fun _ => False) (· ∈ ss)
  eval : ∀ τ, ∃ c, candidates[index τ]? = some c ∧ c.Lift (SameValue ss τ) r

section Nests

variable {index : (Hole → Bool) → Nat} {r : Nest} {rs : List Nest}

theorem pickedNest_leaf (h : Picked ss index xs y) :
    PickedNest ss index (xs.map .leaf) (.leaf y) where
  uses c hc := by
    obtain ⟨x, hx, rfl⟩ := List.mem_map.mp hc
    exact .leaf ⟨h.shape x hx, h.uses x hx⟩
  grown P hP := by
    refine .leaf (h.grown.mono (fun x hx => ?_) (fun _ h => h) (fun _ h => h))
    exact all_leaf.mp (hP _ (List.mem_map.mpr ⟨x, hx, rfl⟩))
  eval τ := by
    obtain ⟨x, hx, hvalue⟩ := h.eval τ
    exact ⟨.leaf x, by rw [List.getElem?_map, hx]; rfl, .leaf hvalue⟩

theorem pickedNest_nil {n : Nat} (hindex : ∀ τ, index τ < n) :
    PickedNest ss index (List.replicate n (.list [])) (.list []) where
  uses c hc := by
    obtain ⟨-, rfl⟩ := List.mem_replicate.mp hc
    exact .nil
  grown _ _ := .nil
  eval τ := ⟨.list [], by rw [List.getElem?_replicate, if_pos (hindex τ)], .nil⟩

theorem PickedNest.cons (cs : List (Nest × List Nest))
    (head : PickedNest ss index (cs.map (·.1)) r)
    (tail : PickedNest ss index (cs.map fun c => .list c.2) (.list rs)) :
    PickedNest ss index (cs.map fun c => .list (c.1 :: c.2)) (.list (r :: rs)) where
  uses c hc := by
    obtain ⟨d, hd, rfl⟩ := List.mem_map.mp hc
    exact .cons (head.uses _ (List.mem_map_of_mem hd))
      (tail.uses (.list d.2) (List.mem_map.mpr ⟨d, hd, rfl⟩))
  grown P hP := by
    have hparts : ∀ c ∈ cs, c.1.All P ∧ (Nest.list c.2).All P := by
      intro c hc
      cases hP _ (List.mem_map.mpr ⟨c, hc, rfl⟩) with
      | cons head tail => exact ⟨head, tail⟩
    refine .cons (head.grown P fun c hc => ?_) (tail.grown P fun c hc => ?_)
    · obtain ⟨d, hd, rfl⟩ := List.mem_map.mp hc
      exact (hparts d hd).1
    · obtain ⟨d, hd, rfl⟩ := List.mem_map.mp hc
      exact (hparts d hd).2
  eval τ := by
    obtain ⟨c, hc, hhead⟩ := head.eval τ
    obtain ⟨d, hd, htail⟩ := tail.eval τ
    rw [List.getElem?_map, Option.map_eq_some_iff] at hc hd
    obtain ⟨c, hc, rfl⟩ := hc
    obtain ⟨d, hd, rfl⟩ := hd
    obtain rfl : c = d := Option.some.inj (hc.symm.trans hd)
    exact ⟨.list (c.1 :: c.2), by rw [List.getElem?_map, hc]; rfl, .cons hhead htail⟩

/-- Two words of one width. -/
structure SameWord (a b : Expr) : Prop where
  word : a.isWord
  same : b.shape = a.shape

theorem exists_leaves {e : Expr} {others : List Nest}
    (h : ∀ o ∈ others, (Nest.leaf e).Lift (SameWord) o) :
    ∃ es : List Expr, others = es.map .leaf ∧ ∀ x ∈ es, SameWord e x := by
  induction others with
  | nil => exact ⟨[], rfl, by simp⟩
  | cons o others ih =>
    obtain ⟨x, rfl, hx⟩ := lift_leaf.mp (h o (by simp))
    obtain ⟨es, rfl, hes⟩ := ih fun o ho => h o (by simp [ho])
    exact ⟨x :: es, rfl, by simpa using ⟨hx, hes⟩⟩

theorem exists_lists {items : List Nest} {others : List Nest}
    (h : ∀ o ∈ others, (Nest.list items).Lift (SameWord) o) :
    ∃ os : List (List Nest), others = os.map .list ∧
      ∀ o ∈ os, (Nest.list items).Lift (SameWord) (.list o) := by
  induction others with
  | nil => exact ⟨[], rfl, by simp⟩
  | cons o others ih =>
    have ho := h o (by simp)
    obtain ⟨bs, rfl, -⟩ := lift_list.mp ho
    obtain ⟨os, rfl, hos⟩ := ih fun o ho => h o (by simp [ho])
    exact ⟨bs :: os, rfl, by simpa using ⟨ho, hos⟩⟩

theorem exists_pairs {item : Nest} {items : List Nest} {os : List (List Nest)}
    (h : ∀ o ∈ os, (Nest.list (item :: items)).Lift (SameWord) (.list o)) :
    ∃ cs : List (Nest × List Nest), os = cs.map (fun c => c.1 :: c.2) ∧
      ∀ c ∈ cs, item.Lift (SameWord) c.1 ∧ (Nest.list items).Lift (SameWord) (.list c.2) := by
  induction os with
  | nil => exact ⟨[], rfl, by simp⟩
  | cons o os ih =>
    obtain ⟨cs, rfl, hcs⟩ := ih fun o ho => h o (by simp [ho])
    cases h o (by simp) with
    | cons head tail => exact ⟨(_, _) :: cs, rfl, List.forall_mem_cons.mpr ⟨⟨head, tail⟩, hcs⟩⟩

theorem mapM_asList (os : List (List Nest)) :
    ((os.map .list).mapM asList : Except Refusal (List (List Nest))) = .ok os := by
  induction os with
  | nil => rfl
  | cons o os ih =>
    rw [List.map_cons, List.mapM_cons, ih]
    rfl

theorem length_of_lift {R : Expr → Expr → Prop} {as bs : List Nest}
    (h : (Nest.list as).Lift R (.list bs)) : bs.length = as.length := by
  obtain ⟨cs, hcs, hall⟩ := lift_list.mp h
  rw [Nest.list.injEq] at hcs
  rw [hcs, hall.length_eq]

theorem length_distinct {n : Nat} {ns : List Nat} (ne : ns ≠ []) (h : ∀ m ∈ ns, m = n) :
    (Checked.distinct ns).length = 1 := by
  obtain ⟨m, rest, rfl⟩ := List.exists_cons_of_ne_nil ne
  have hm : m = n := h m (by simp)
  have hrest : rest.filter (fun b => !b == m) = [] := by
    rw [List.filter_eq_nil_iff]
    intro b hb
    simp [hm, h b (by simp [hb])]
  rw [Checked.distinct, List.length_mergeSort, List.eraseDups_cons, hrest]
  rfl

mutual

/-- Enough selectors pick among nests of one form with words for leaves. -/
theorem pickNest_spec (hss : ∀ s ∈ ss, s.width = 1) :
    ∀ (first : Nest) (others : List Nest), (∀ o ∈ others, first.Lift (SameWord) o) →
      others.length + 1 ≤ twoPow ss.length → ∀ next : Nat,
        ∃ r last, pickNest ss first others next = .ok (r, last) ∧ next ≤ last ∧
          PickedNest ss (fun τ => pickedIndex τ ss (others.length + 1)) (first :: others) r
  | .leaf e, others, form, few, next => by
    obtain ⟨es, rfl, hes⟩ := exists_leaves form
    cases es with
    | nil =>
      refine ⟨.leaf e, next, ?_, le_rfl, pickedNest_leaf (picked_self ss e)⟩
      rw [pickNest]
      cases ss <;> rfl
    | cons x es =>
      have hwords : ∀ z ∈ e :: x :: es, z.shape = .word e.width := by
        have he := isWord_iff.mp (hes x (by simp)).word
        exact List.forall_mem_cons.mpr ⟨he, fun z hz => (hes z hz).same.trans he⟩
      obtain ⟨y, last, hrun, hle, hspec⟩ := pick_spec hss hwords (by simp) (by simpa using few) next
      refine ⟨.leaf y, last, by rw [pickNest]; exact hrun, hle, ?_⟩
      simpa using pickedNest_leaf hspec
  | .list items, others, form, few, next => by
    obtain ⟨os, rfl, hos⟩ := exists_lists form
    obtain ⟨rs, last, hrun, hle, hspec⟩ := pickItems_spec hss items os hos (by simpa using few) next
    refine ⟨.list rs, last, ?_, hle, by simpa using hspec⟩
    have hlengths : (Checked.distinct (items.length :: os.map List.length)).length = 1 := by
      refine length_distinct (n := items.length) (by simp) fun m hm => ?_
      rcases List.mem_cons.mp hm with rfl | hm
      · rfl
      · obtain ⟨o, ho, rfl⟩ := List.mem_map.mp hm
        exact length_of_lift (hos o ho)
    rw [pickNest, bind_of_ok (lift_of_ok (mapM_asList os))]
    simp only [hlengths, if_true]
    rw [bind_of_ok hrun]
    rfl

theorem pickItems_spec (hss : ∀ s ∈ ss, s.width = 1) :
    ∀ (items : List Nest) (others : List (List Nest)),
      (∀ o ∈ others, (Nest.list items).Lift (SameWord) (.list o)) →
        others.length + 1 ≤ twoPow ss.length → ∀ next : Nat,
          ∃ rs last, pickItems ss items others next = .ok (rs, last) ∧ next ≤ last ∧
            PickedNest ss (fun τ => pickedIndex τ ss (others.length + 1))
              ((items :: others).map .list) (.list rs)
  | [], others, form, few, next => by
    refine ⟨[], next, by rw [pickItems]; rfl, le_rfl, ?_⟩
    have hempty : ([] :: others).map .list = List.replicate (others.length + 1) (Nest.list []) := by
      refine List.eq_replicate_iff.mpr ⟨by simp, fun c hc => ?_⟩
      obtain ⟨o, ho, rfl⟩ := List.mem_map.mp hc
      rcases List.mem_cons.mp ho with rfl | ho
      · rfl
      · rw [List.length_eq_zero_iff.mp (length_of_lift (form o ho))]
    rw [hempty]
    exact pickedNest_nil fun τ => pickedIndex_lt (Nat.succ_pos _)
  | item :: items, others, form, few, next => by
    obtain ⟨cs, rfl, hcs⟩ := exists_pairs form
    have hheads : (cs.map fun c => c.1 :: c.2).filterMap List.head? = cs.map (·.1) := by
      simp [List.filterMap_map, Function.comp_def]
    have htails : (cs.map fun c => c.1 :: c.2).map List.tail = cs.map (·.2) := by simp
    obtain ⟨r, mid, hhead, hle, hpicked⟩ := pickNest_spec hss item (cs.map (·.1))
      (List.forall_mem_map.mpr fun c hc => (hcs c hc).1) (by simpa using few) next
    obtain ⟨rs, last, htail, hle', hrest⟩ := pickItems_spec hss items (cs.map (·.2))
      (List.forall_mem_map.mpr fun c hc => (hcs c hc).2) (by simpa using few) mid
    refine ⟨r :: rs, last, ?_, hle.trans hle', ?_⟩
    · rw [pickItems, hheads, bind_of_ok hhead, htails, bind_of_ok htail]
      rfl
    · have hcons := PickedNest.cons ((item, items) :: cs)
        (by simpa using hpicked) (by simpa [Function.comp_def] using hrest)
      simpa [Function.comp_def] using hcons

end

end Nests

end ArrangementChoice
end CircuitSketch
