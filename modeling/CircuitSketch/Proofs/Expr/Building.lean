import CircuitSketch.Expr.Build
import CircuitSketch.Proofs.Bits.Reading
import Mathlib.Data.List.Forall2

/-!
# Running a build

A build that returns has run its steps one after the other, each from the tag at which the step
before it stopped. Runs are taken apart here step by step and put together again.
-/
namespace CircuitSketch.Build

variable {ε α γ : Type} {next last : Nat}

theorem exists_of_forall₂_left {R : α → γ → Prop} {xs : List α} {ys : List γ}
    (h : List.Forall₂ R xs ys) {x : α} (hx : x ∈ xs) : ∃ y ∈ ys, R x y := by
  obtain ⟨i, hi, rfl⟩ := List.getElem_of_mem hx
  have hi' : i < ys.length := h.length_eq ▸ hi
  exact ⟨ys[i], List.getElem_mem hi', h.get hi hi'⟩

theorem exists_of_forall₂_right {R : α → γ → Prop} {xs : List α} {ys : List γ}
    (h : List.Forall₂ R xs ys) {y : γ} (hy : y ∈ ys) : ∃ x ∈ xs, R x y :=
  exists_of_forall₂_left h.flip hy

theorem exists_map_of_forall₂ {δ : Type} {R : α → γ → Prop} {f : γ → δ} {xs : List α}
    {zs : List δ} (h : List.Forall₂ (fun x z => ∃ y, z = f y ∧ R x y) xs zs) :
    ∃ ys, zs = ys.map f ∧ List.Forall₂ R xs ys := by
  induction h with
  | nil => exact ⟨[], rfl, .nil⟩
  | cons hxz _ ih =>
    obtain ⟨y, rfl, hy⟩ := hxz
    obtain ⟨ys, rfl, hys⟩ := ih
    exact ⟨y :: ys, rfl, .cons hy hys⟩

theorem exists_forall₂ {R : α → γ → Prop} {xs : List α} (h : ∀ x ∈ xs, ∃ y, R x y) :
    ∃ ys, List.Forall₂ R xs ys := by
  induction xs with
  | nil => exact ⟨[], .nil⟩
  | cons x xs ih =>
    obtain ⟨y, hy⟩ := h x (by simp)
    obtain ⟨ys, hys⟩ := ih fun z hz => h z (by simp [hz])
    exact ⟨y :: ys, .cons hy hys⟩

theorem of_bind {b : Build ε α} {f : α → Build ε γ} {c : γ}
    (h : (b >>= f) next = .ok (c, last)) :
    ∃ a mid, b next = .ok (a, mid) ∧ f a mid = .ok (c, last) := by
  obtain ⟨⟨a, mid⟩, ha, hc⟩ := bind_eq_ok h
  exact ⟨a, mid, ha, hc⟩

theorem bind_of_ok {b : Build ε α} {f : α → Build ε γ} {a : α} {mid : Nat}
    (h : b next = .ok (a, mid)) : (b >>= f) next = f a mid := by
  show (b next >>= fun r => f r.1 r.2) = f a mid
  rw [h]
  rfl

theorem bind_of_error {b : Build ε α} {f : α → Build ε γ} {e : ε} (h : b next = .error e) :
    (b >>= f) next = .error e := by
  simp only [Bind.bind, StateT.bind, h, Except.bind]

theorem of_lift {x : Except ε α} {a : α} (h : (liftM x : Build ε α) next = .ok (a, last)) :
    x = .ok a ∧ next = last := by
  cases x with
  | error e => cases h
  | ok b =>
    cases h
    exact ⟨rfl, rfl⟩

theorem lift_of_ok {x : Except ε α} {a : α} (h : x = .ok a) :
    (liftM x : Build ε α) next = .ok (a, next) := by
  subst h
  rfl

/-- A run whose result has a part that can be computed has a result. -/
theorem exists_of_part {run : Except ε α} {part : α → γ} {c : γ}
    (h : run.toOption.map part = some c) : ∃ a, run = .ok a ∧ part a = c := by
  cases run with
  | error e => cases h
  | ok a => exact ⟨a, rfl, Option.some.inj h⟩

theorem exists_of_isSome {run : Except ε α} (h : run.toOption.isSome) : ∃ a, run = .ok a := by
  cases run with
  | error e => cases h
  | ok a => exact ⟨a, rfl⟩

theorem exists_of_program {run : Except ε ((α × γ) × Nat)} {s : γ}
    (h : (run.toOption.map fun r => r.1.2) = some s) : ∃ a last, run = .ok ((a, s), last) := by
  obtain ⟨⟨⟨a, s⟩, last⟩, hrun, rfl⟩ := exists_of_part h
  exact ⟨a, last, hrun⟩

/-- A build that returns wherever it starts. -/
def Succeeds (b : Build ε α) : Prop := ∀ next, ∃ a last, b next = .ok (a, last)

theorem succeeds_pure (a : α) : Succeeds (pure a : Build ε α) := fun next => ⟨a, next, rfl⟩

theorem succeeds_node (op : Op) (s : Shape) (args : List Expr) :
    Succeeds (node op s args : Build ε Expr) := fun _ => ⟨_, _, rfl⟩

theorem succeeds_newHole (width : Nat) (name : Option String) :
    Succeeds (newHole width name : Build ε Hole) := fun _ => ⟨_, _, rfl⟩

/-- A build returns if its first step does, and the rest does after whatever the first step may
have made. -/
theorem Succeeds.bind {b : Build ε α} {f : α → Build ε γ} (hb : b.Succeeds)
    (hf : ∀ a next last, b next = .ok (a, last) → (f a).Succeeds) : Succeeds (b >>= f) := by
  intro next
  obtain ⟨a, mid, ha⟩ := hb next
  obtain ⟨c, last, hc⟩ := hf a next mid ha mid
  exact ⟨c, last, (bind_of_ok ha).trans hc⟩

theorem succeeds_choose (a b : Expr) : Succeeds (choose a b : Build ε Expr) :=
  fun _ => ⟨_, _, rfl⟩

theorem succeeds_mapM {f : α → Build ε γ} {xs : List α} (h : ∀ x ∈ xs, (f x).Succeeds) :
    Succeeds (xs.mapM f) := by
  induction xs with
  | nil => exact succeeds_pure []
  | cons x xs ih =>
    rw [List.mapM_cons]
    refine (h x (by simp)).bind fun y _ _ _ => ?_
    exact (ih fun z hz => h z (by simp [hz])).bind fun ys _ _ _ => succeeds_pure _

theorem succeeds_newBits (count : Nat) : Succeeds (newBits count : Build ε (List Hole)) := by
  induction count with
  | zero => exact succeeds_pure []
  | succ count ih =>
    exact (succeeds_newHole 1 none).bind fun h _ _ _ => ih.bind fun rest _ _ _ => succeeds_pure _

/-- Building from each element of a list runs the builds one after the other. -/
theorem of_mapM {f : α → Build ε γ} {xs : List α} {ys : List γ}
    (h : xs.mapM f next = .ok (ys, last))
    (mono : ∀ x ∈ xs, ∀ a y b, f x a = .ok (y, b) → a ≤ b) :
    next ≤ last ∧
      List.Forall₂ (fun x y => ∃ a b, next ≤ a ∧ b ≤ last ∧ f x a = .ok (y, b)) xs ys := by
  induction xs generalizing next ys with
  | nil =>
    cases h
    exact ⟨le_rfl, .nil⟩
  | cons x xs ih =>
    rw [List.mapM_cons] at h
    obtain ⟨y, mid, hy, h⟩ := of_bind h
    obtain ⟨rest, stop, hrest, h⟩ := of_bind h
    cases h
    have hfirst := mono x (by simp) next y mid hy
    obtain ⟨hle, hall⟩ := ih hrest fun z hz => mono z (by simp [hz])
    refine ⟨hfirst.trans hle, .cons ⟨next, mid, le_rfl, hle, hy⟩ (hall.imp ?_)⟩
    rintro z w ⟨a, b, ha, hb, hw⟩
    exact ⟨a, b, hfirst.trans ha, hb, hw⟩

/-- New decisions of one bit take the next tags. -/
theorem of_newBits {count : Nat} {holes : List Hole}
    (h : (newBits count : Build ε (List Hole)) next = .ok (holes, last)) :
    last = next + count ∧ holes.length = count ∧
      ∀ k ∈ holes, k.width = 1 ∧ next ≤ k.tag ∧ k.tag < last := by
  induction count generalizing next holes with
  | zero =>
    cases h
    simp
  | succ count ih =>
    obtain ⟨k, mid, hk, h⟩ := of_bind h
    obtain ⟨rest, stop, hrest, h⟩ := of_bind h
    cases h
    cases hk
    obtain ⟨rfl, hlen, hall⟩ := ih hrest
    refine ⟨by omega, by simp [hlen], fun j hj => ?_⟩
    rcases List.mem_cons.mp hj with rfl | hj
    · exact ⟨rfl, le_rfl, by simp only; omega⟩
    · obtain ⟨hwidth, hge, hlt⟩ := hall j hj
      exact ⟨hwidth, by omega, hlt⟩

/-- New decisions are all different. -/
theorem nodup_newBits {count : Nat} {holes : List Hole}
    (h : (newBits count : Build ε (List Hole)) next = .ok (holes, last)) : holes.Nodup := by
  induction count generalizing next holes with
  | zero =>
    cases h
    exact List.nodup_nil
  | succ count ih =>
    obtain ⟨k, mid, hk, h⟩ := of_bind h
    obtain ⟨rest, stop, hrest, h⟩ := of_bind h
    cases h
    cases hk
    refine List.nodup_cons.mpr ⟨fun hmem => ?_, ih hrest⟩
    exact Nat.not_succ_le_self next ((of_newBits hrest).2.2 _ hmem).2.1

end CircuitSketch.Build
