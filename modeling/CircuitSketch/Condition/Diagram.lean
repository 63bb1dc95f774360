import Std.Data.DHashMap

/-!
# Decision diagrams

A Boolean function of numbered decisions as a diagram: a constant, or a branch on one decision. In a
diagram without waste (`Diagram.Above`) the decisions increase downwards and no branch has equal
sides, so every function has one diagram. Equal parts are shared in memory, and each diagram carries
a key computed from its contents that tells most unequal diagrams apart at once.
-/
namespace CircuitSketch

/-- A constant, or a branch on a decision: the first side where it is zero, the second where it is
one. -/
inductive Diagram
  | leaf (b : Bool)
  | branch (decision : Nat) (ifZero ifOne : Diagram)
with
  @[computed_field] key : Diagram → UInt64
    | .leaf b => hash b
    | .branch v a b => mixHash (hash v) (mixHash a.key b.key)

namespace Diagram

/-- Equality of diagrams from the top down. The keys are compared before anything below them. -/
protected def decEq (x y : Diagram) : Decidable (x = y) :=
  withPtrEqDecEq x y fun _ =>
    if h : x.key = y.key then
      match x, y with
      | .leaf a, .leaf b =>
        if e : a = b then .isTrue (e ▸ rfl) else .isFalse fun q => e (Diagram.leaf.inj q)
      | .branch v a b, .branch v' a' b' =>
        if e : v = v' then
          match Diagram.decEq a a' with
          | .isFalse p => .isFalse (by simp [p])
          | .isTrue p =>
            match Diagram.decEq b b' with
            | .isFalse q => .isFalse (by simp [q])
            | .isTrue q => .isTrue (by simp [e, p, q])
        else .isFalse (by simp [e])
      | .leaf _, .branch .. => .isFalse (by simp)
      | .branch .., .leaf _ => .isFalse (by simp)
    else .isFalse fun q => h (by rw [q])

/-- Equality of diagrams. Two diagrams with the same key are almost surely equal, so their equal
parts are first made the same in memory; otherwise a part that is reached in many ways would be
compared as often. -/
instance : DecidableEq Diagram := fun x y =>
  withPtrEqDecEq x y fun _ =>
    if h : x.key = y.key then
      match hp : ShareCommon.shareCommon' (x, y) with
      | (x', y') =>
        have e : (x', y') = (x, y) := hp.symm
        have ex : x' = x := congrArg Prod.fst e
        have ey : y' = y := congrArg Prod.snd e
        ex ▸ ey ▸ Diagram.decEq x' y'
    else .isFalse fun q => h (by rw [q])

instance : Hashable Diagram := ⟨key⟩

/-- The value of the function under given decisions. -/
def eval (σ : Nat → Bool) : Diagram → Bool
  | leaf b => b
  | branch v a b => if σ v then eval σ b else eval σ a

/-- A diagram without waste over decisions from `n` on: they increase downwards, and no branch has
equal sides. -/
def Above (n : Nat) : Diagram → Prop
  | leaf _ => True
  | branch v a b => n ≤ v ∧ a ≠ b ∧ Above (v + 1) a ∧ Above (v + 1) b

theorem Above.mono {m n : Nat} {d : Diagram} (h : d.Above m) (le : n ≤ m) : d.Above n := by
  cases d with
  | leaf b => trivial
  | branch v a b => exact ⟨Nat.le_trans le h.1, h.2⟩

/-- A branch, or its side when both are the same. -/
def join (v : Nat) (a b : Diagram) : Diagram := if a = b then a else branch v a b

theorem eval_join (σ : Nat → Bool) (v : Nat) (a b : Diagram) :
    (join v a b).eval σ = if σ v then b.eval σ else a.eval σ := by
  unfold join
  split
  · next h => subst h; simp
  · rfl

theorem Above.join {n v : Nat} {a b : Diagram} (le : n ≤ v) (ha : a.Above (v + 1))
    (hb : b.Above (v + 1)) : (Diagram.join v a b).Above n := by
  unfold Diagram.join
  split
  · exact ha.mono (by omega)
  · next h => exact ⟨le, h, ha, hb⟩

/-- Two functions combined by an operator on truth values. Where one of them is constant and settles
the result, or leaves the other function as it is, that one is not entered. -/
def apply (op : Bool → Bool → Bool) (f g : Diagram) : Diagram :=
  match f, g with
  | leaf x, leaf y => leaf (op x y)
  | leaf x, branch v a b =>
    if op x false = op x true then leaf (op x true)
    else if op x true then branch v a b
    else join v (apply op (leaf x) a) (apply op (leaf x) b)
  | branch v a b, leaf y =>
    if op false y = op true y then leaf (op true y)
    else if op true y then branch v a b
    else join v (apply op a (leaf y)) (apply op b (leaf y))
  | branch v a b, branch w c d =>
    if v < w then join v (apply op a (branch w c d)) (apply op b (branch w c d))
    else if w < v then join w (apply op (branch v a b) c) (apply op (branch v a b) d)
    else join v (apply op a c) (apply op b d)
termination_by sizeOf f + sizeOf g

theorem eval_apply (σ : Nat → Bool) (op : Bool → Bool → Bool) (f g : Diagram) :
    (apply op f g).eval σ = op (f.eval σ) (g.eval σ) := by
  fun_induction apply op f g with
  | case1 x y => rfl
  | case2 x v a b h =>
    simp only [eval]
    cases (if σ v = true then eval σ b else eval σ a) <;> simp [h]
  | case3 x v a b h h' =>
    have h0 : op x false = false := by
      cases hx : op x false
      · rfl
      · exact absurd (hx.trans h'.symm) h
    cases hr : (branch v a b).eval σ <;> simp [eval, h', h0]
  | case4 x v a b h h' iha ihb =>
    simp only [eval_join, iha, ihb, eval]
    split <;> rfl
  | case5 v a b y h =>
    simp only [eval]
    cases (if σ v = true then eval σ b else eval σ a) <;> simp [h]
  | case6 v a b y h h' =>
    have h0 : op false y = false := by
      cases hx : op false y
      · rfl
      · exact absurd (hx.trans h'.symm) h
    cases hr : (branch v a b).eval σ <;> simp [eval, h', h0]
  | case7 v a b y h h' iha ihb =>
    simp only [eval_join, iha, ihb, eval]
    split <;> rfl
  | case8 v a b w c d h iha ihb =>
    simp only [eval_join, iha, ihb, eval]
    split <;> rfl
  | case9 v a b w c d h h' iha ihb =>
    simp only [eval_join, iha, ihb, eval]
    split <;> rfl
  | case10 v a b w c d h h' iha ihb =>
    have : v = w := by omega
    subst this
    simp only [eval_join, iha, ihb, eval]
    split <;> rfl

theorem Above.apply {n : Nat} (op : Bool → Bool → Bool) {f g : Diagram} (hf : f.Above n)
    (hg : g.Above n) : (Diagram.apply op f g).Above n := by
  fun_induction Diagram.apply op f g generalizing n with
  | case1 | case2 | case5 => trivial
  | case3 | case6 => assumption
  | case4 x v a b h h' iha ihb =>
    exact Above.join hg.1 (iha trivial hg.2.2.1) (ihb trivial hg.2.2.2)
  | case7 v a b y h h' iha ihb =>
    exact Above.join hf.1 (iha hf.2.2.1 trivial) (ihb hf.2.2.2 trivial)
  | case8 v a b w c d h iha ihb =>
    have hg' : (branch w c d).Above (v + 1) := ⟨h, hg.2⟩
    exact Above.join hf.1 (iha hf.2.2.1 hg') (ihb hf.2.2.2 hg')
  | case9 v a b w c d h h' iha ihb =>
    have hf' : (branch v a b).Above (w + 1) := ⟨h', hf.2⟩
    exact Above.join hg.1 (iha hf' hg.2.2.1) (ihb hf' hg.2.2.2)
  | case10 v a b w c d h h' iha ihb =>
    have : v = w := by omega
    subst this
    exact Above.join hf.1 (iha hf.2.2.1 hg.2.2.1) (ihb hf.2.2.2 hg.2.2.2)

/-- Combinations of pairs of diagrams, each with the proof that it is that. -/
abbrev ApplyTable (op : Bool → Bool → Bool) :=
  Std.DHashMap (Diagram × Diagram) fun p => { r // r = apply op p.1 p.2 }

/-- `apply` by way of a table, which gains the pairs combined on the way. -/
def applyShared (op : Bool → Bool → Bool) (table : ApplyTable op) (f g : Diagram) :
    { r // r = apply op f g } × ApplyTable op :=
  match f, g with
  | leaf x, leaf y => (⟨leaf (op x y), by simp [apply]⟩, table)
  | leaf x, branch v a b =>
    if h : op x false = op x true then (⟨leaf (op x true), by rw [apply, if_pos h]⟩, table)
    else if h' : op x true then (⟨branch v a b, by rw [apply, if_neg h, if_pos h']⟩, table)
    else
      match table.get? (leaf x, branch v a b) with
      | some r => (r, table)
      | none =>
        let (p, table) := applyShared op table (leaf x) a
        let (q, table) := applyShared op table (leaf x) b
        let r : { r // r = apply op (leaf x) (branch v a b) } :=
          ⟨join v p.1 q.1, by rw [p.2, q.2, apply, if_neg h, if_neg h']⟩
        (r, table.insert (leaf x, branch v a b) r)
  | branch v a b, leaf y =>
    if h : op false y = op true y then (⟨leaf (op true y), by rw [apply, if_pos h]⟩, table)
    else if h' : op true y then (⟨branch v a b, by rw [apply, if_neg h, if_pos h']⟩, table)
    else
      match table.get? (branch v a b, leaf y) with
      | some r => (r, table)
      | none =>
        let (p, table) := applyShared op table a (leaf y)
        let (q, table) := applyShared op table b (leaf y)
        let r : { r // r = apply op (branch v a b) (leaf y) } :=
          ⟨join v p.1 q.1, by rw [p.2, q.2, apply, if_neg h, if_neg h']⟩
        (r, table.insert (branch v a b, leaf y) r)
  | branch v a b, branch w c d =>
    match table.get? (branch v a b, branch w c d) with
    | some r => (r, table)
    | none =>
      if h : v < w then
        let (p, table) := applyShared op table a (branch w c d)
        let (q, table) := applyShared op table b (branch w c d)
        let r : { r // r = apply op (branch v a b) (branch w c d) } :=
          ⟨join v p.1 q.1, by rw [p.2, q.2, apply, if_pos h]⟩
        (r, table.insert (branch v a b, branch w c d) r)
      else if h' : w < v then
        let (p, table) := applyShared op table (branch v a b) c
        let (q, table) := applyShared op table (branch v a b) d
        let r : { r // r = apply op (branch v a b) (branch w c d) } :=
          ⟨join w p.1 q.1, by rw [p.2, q.2, apply, if_neg h, if_pos h']⟩
        (r, table.insert (branch v a b, branch w c d) r)
      else
        let (p, table) := applyShared op table a c
        let (q, table) := applyShared op table b d
        let r : { r // r = apply op (branch v a b) (branch w c d) } :=
          ⟨join v p.1 q.1, by rw [p.2, q.2, apply, if_neg h, if_neg h']⟩
        (r, table.insert (branch v a b, branch w c d) r)
termination_by sizeOf f + sizeOf g

/-- Two functions combined by an operator, every pair of parts at most once. -/
def combine (op : Bool → Bool → Bool) (f g : Diagram) : Diagram :=
  let parts := ShareCommon.shareCommon' (f, g)
  (applyShared op ∅ parts.1 parts.2).1.1

theorem combine_eq_apply (op : Bool → Bool → Bool) (f g : Diagram) :
    combine op f g = apply op f g :=
  (applyShared op ∅ f g).1.2

/-- The decisions on the least way to one: zero is taken wherever it leads there. A function that is
never one has no such way. -/
def leastPath : Diagram → Option (List (Nat × Bool))
  | leaf true => some []
  | leaf false => none
  | branch v a b =>
    match leastPath a with
    | some path => some ((v, false) :: path)
    | none => (leastPath b).map ((v, true) :: ·)

end Diagram
end CircuitSketch
