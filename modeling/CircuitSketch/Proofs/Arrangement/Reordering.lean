import CircuitSketch.Proofs.Arrangement.Picking

/-!
# Reordering and back

An arrangement that only reorders positions loses nothing on the way to the physical side, and its
way back puts whatever has been computed for a position where that position was.
-/
namespace CircuitSketch

open CircuitSketch.Expr Build

section Arrange

variable {α γ : Type} {order : Nat → List Nat} {xs : List α} {ys : List γ}

theorem arrange_map (f : α → γ) : arrange order (xs.map f) = (arrange order xs).map f := by
  simp only [arrange, List.length_map, List.getElem?_map, List.map_filterMap]

theorem arrange_range (xs : List α) : arrange List.range xs = xs := by
  rw [arrange]
  induction xs with
  | nil => rfl
  | cons x xs ih =>
    rw [List.length_cons, List.range_succ_eq_map, List.filterMap_cons, List.filterMap_map]
    simpa [Function.comp_def] using ih

theorem arrange_reverse (xs : List α) : arrange (fun n => (List.range n).reverse) xs = xs.reverse := by
  have h := arrange_range xs
  rw [arrange] at h ⊢
  rw [List.filterMap_reverse, h]

/-- Positions that are all named once are all kept. -/
theorem arrange_perm (h : (order xs.length).Perm (List.range xs.length)) :
    (arrange order xs).Perm xs := by
  have hall := h.filterMap fun i => xs[i]?
  rwa [show (List.range xs.length).filterMap (fun i => xs[i]?) = xs from arrange_range xs] at hall

theorem forall₂_arrange {R : α → γ → Prop} (order : Nat → List Nat) (h : List.Forall₂ R xs ys) :
    List.Forall₂ R (arrange order xs) (arrange order ys) := by
  rw [arrange, arrange, h.length_eq]
  induction order ys.length with
  | nil => exact .nil
  | cons i rest ih =>
    rw [List.filterMap_cons, List.filterMap_cons]
    by_cases hi : i < xs.length
    · have hi' : i < ys.length := h.length_eq ▸ hi
      rw [List.getElem?_eq_getElem hi, List.getElem?_eq_getElem hi']
      exact .cons (h.get hi hi') ih
    · rw [List.getElem?_eq_none (by omega), List.getElem?_eq_none (by rw [← h.length_eq]; omega)]
      exact ih

theorem map_some_arrange (h : ∀ i ∈ order xs.length, i < xs.length) :
    (arrange order xs).map some = (order xs.length).map fun i => xs[i]? := by
  rw [arrange]
  generalize order xs.length = positions at h ⊢
  induction positions with
  | nil => rfl
  | cons i rest ih =>
    have hi := h i (by simp)
    rw [List.filterMap_cons, List.map_cons, List.getElem?_eq_getElem hi,
      ← ih fun j hj => h j (by simp [hj])]
    rfl

end Arrange

/-- An arrangement that only reorders positions, and whose way back undoes the way there. -/
structure Arrangement.Reorders (a : Arrangement) : Prop where
  physical : ∀ n, (a.physical n).Perm (List.range n)
  logical : ∀ n, (a.logical n).Perm (List.range n)
  back : ∀ n, arrange a.logical (a.physical n) = List.range n

namespace Arrangement

variable {a : Arrangement}

theorem reorders_identity : identity.Reorders where
  physical _ := .refl _
  logical _ := .refl _
  back n := arrange_range (List.range n)

theorem reorders_reversed : reversed.Reorders where
  physical n := List.reverse_perm _
  logical n := List.reverse_perm _
  back n := by
    rw [reversed, arrange_reverse, List.reverse_reverse]

theorem reorders_usual : ∀ a ∈ usual, a.Reorders := by
  simpa [usual] using ⟨reorders_identity, reorders_reversed⟩

namespace Reorders

theorem logical_physical {α : Type} (h : a.Reorders) (xs : List α) :
    arrange a.logical (arrange a.physical xs) = xs := by
  have hmem : ∀ i ∈ a.physical xs.length, i < xs.length := fun i hi =>
    List.mem_range.mp ((h.physical xs.length).mem_iff.mp hi)
  have hrange : (arrange List.range xs).map some = _ :=
    map_some_arrange fun i hi => List.mem_range.mp hi
  rw [arrange_range] at hrange
  refine List.map_injective_iff.mpr (Option.some_injective α) ?_
  rw [← arrange_map, map_some_arrange hmem, arrange_map, h.back, hrange]

/-- Whatever is computed from each position on the physical side comes back to that position. -/
theorem forall₂_logical {α γ : Type} {R : α → γ → Prop} (h : a.Reorders) {xs : List α}
    {ys : List γ} (hxs : List.Forall₂ R (arrange a.physical xs) ys) :
    List.Forall₂ R xs (arrange a.logical ys) := by
  have hback := forall₂_arrange a.logical hxs
  rwa [h.logical_physical] at hback

end Reorders
end Arrangement

namespace ArrangementChoice

open Nest

/-- Enough selectors to choose among arrangements that only reorder. -/
structure Reorders (c : ArrangementChoice) : Prop where
  arrangements : ∀ a ∈ c.arrangements, a.Reorders
  ones : ∀ s ∈ c.selectors, s.width = 1
  few : c.arrangements.length ≤ twoPow c.selectors.length

/-- The arrangement that the selectors pick. -/
def active (c : ArrangementChoice) (τ : Hole → Bool) : Option Arrangement :=
  c.arrangements[pickedIndex τ c.selectors c.arrangements.length]?

variable {c : ArrangementChoice} {order : Arrangement → Nat → List Nat} {next last : Nat}
  {rs ps : List (List Expr)} {n w : Nat}

/-- Positions laid out in an order that each arrangement says. -/
def layout (c : ArrangementChoice) (order : Arrangement → Nat → List Nat) (positions : List Nest) :
    Build Refusal Nest :=
  pickNest c.selectors (.list (arrange (order c.first) positions))
    (c.rest.map fun a => .list (arrange (order a) positions))

/-- Positions of one form can be laid out. -/
theorem layout_spec (hc : c.Reorders) {positions : List Nest}
    (perm : ∀ a ∈ c.arrangements, ∀ n, (order a n).Perm (List.range n))
    (form : ∀ x ∈ positions, ∀ y ∈ positions, x.Lift (SameWord) y) (next : Nat) :
    ∃ r last, c.layout order positions next = .ok (r, last) ∧ next ≤ last ∧
      PickedNest c.selectors (fun τ => pickedIndex τ c.selectors c.arrangements.length)
        (c.arrangements.map fun a => .list (arrange (order a) positions)) r := by
  have hperm : ∀ a ∈ c.arrangements, (arrange (order a) positions).Perm positions := fun a ha =>
    arrange_perm (perm a ha _)
  have hform : ∀ o ∈ c.rest.map fun a => Nest.list (arrange (order a) positions),
      (Nest.list (arrange (order c.first) positions)).Lift (SameWord) o := by
    intro o ho
    obtain ⟨a, ha, rfl⟩ := List.mem_map.mp ho
    have hfirst := hperm c.first (by simp [arrangements])
    have hother := hperm a (by simp [arrangements, ha])
    refine lift_list.mpr ⟨_, rfl, List.forall₂_iff_get.mpr ⟨?_, fun i h1 h2 => ?_⟩⟩
    · rw [hfirst.length_eq, hother.length_eq]
    · exact form _ (hfirst.mem_iff.mp (List.get_mem _ _)) _ (hother.mem_iff.mp (List.get_mem _ _))
  have hfew := hc.few
  obtain ⟨r, last, hrun, hle, hspec⟩ := pickNest_spec hc.ones _ _ hform
    (by simpa [arrangements] using hfew) next
  exact ⟨r, last, hrun, hle, by simpa [arrangements] using hspec⟩

/-- Rows of words, all of one length and one width. -/
def Rectangular (n w : Nat) (rs : List (List Expr)) : Prop :=
  ∀ row ∈ rs, row.length = n ∧ ∀ x ∈ row, x.shape = .word w

theorem Rectangular.sum_width (h : Rectangular n w rs) :
    (rs.flatten.map Expr.width).sum = rs.length * (n * w) := by
  induction rs with
  | nil => simp
  | cons row rs ih =>
    obtain ⟨hlen, hshape⟩ := h row (by simp)
    have hrow : row.map Expr.width = List.replicate n w := by
      rw [← hlen, List.eq_replicate_iff]
      refine ⟨List.length_map .., fun v hv => ?_⟩
      obtain ⟨x, hx, rfl⟩ := List.mem_map.mp hv
      exact width_of_shape (hshape x hx)
    rw [List.flatten_cons, List.map_append, List.sum_append, hrow, List.sum_replicate_nat,
      ih fun r hr => h r (by simp [hr]), List.length_cons, Nat.succ_mul, Nat.add_comm]

/-- Rows laid out in an order that the selectors pick. -/
structure Laid (c : ArrangementChoice) (order : Arrangement → Nat → List Nat)
    (rs ps : List (List Expr)) : Prop where
  rectangular : ∀ {n w}, Rectangular n w rs → Rectangular n w ps
  length : ps.length = rs.length
  uses : ∀ x ∈ rs.flatten, x ∈ preorderAll ps.flatten
  grown : ∀ y ∈ ps.flatten, y.Grown (· ∈ rs.flatten) (fun _ => False) (· ∈ c.selectors)
  eval : ∀ τ, ∃ a ∈ c.active τ,
    List.Forall₂ (List.Forall₂ (SameValue c.selectors τ)) (arrange (order a) rs) ps

theorem laid_spec (hc : c.Reorders)
    (perm : ∀ a ∈ c.arrangements, ∀ n, (order a n).Perm (List.range n))
    (hrs : Rectangular n w rs) (next : Nat) :
    ∃ ps last, c.layout order (rows rs) next = .ok (.list (rows ps), last) ∧ next ≤ last ∧
      Laid c order rs ps := by
  have hrows : ∀ a, arrange (order a) (rows rs) = rows (arrange (order a) rs) :=
    fun a => arrange_map _
  have hform : ∀ x ∈ rows rs, ∀ y ∈ rows rs, x.Lift (SameWord) y := by
    intro x hx y hy
    obtain ⟨r, hr, rfl⟩ := List.mem_map.mp hx
    obtain ⟨r', hr', rfl⟩ := List.mem_map.mp hy
    refine lift_row.mpr ⟨r', rfl, List.forall₂_iff_get.mpr ⟨?_, fun i h1 h2 => ?_⟩⟩
    · rw [(hrs r hr).1, (hrs r' hr').1]
    · have hword := (hrs r hr).2 _ (List.get_mem r ⟨i, h1⟩)
      exact ⟨isWord_of_shape hword,
        ((hrs r' hr').2 _ (List.get_mem _ _)).trans hword.symm⟩
  obtain ⟨r, last, hrun, hle, hspec⟩ := layout_spec hc perm hform next
  simp only [hrows] at hspec
  have hperm := arrange_perm (perm c.first (by simp [arrangements]) rs.length)
  have hfirst := hspec.uses (.list (rows (arrange (order c.first) rs))) (by simp [arrangements])
  obtain ⟨ps, rfl, hps⟩ := lift_rows.mp hfirst
  have hmem : ∀ x, x ∈ (arrange (order c.first) rs).flatten ↔ x ∈ rs.flatten := fun x =>
    hperm.flatten.mem_iff
  refine ⟨ps, last, hrun, hle, ?_, ?_, ?_, ?_, fun τ => ?_⟩
  · intro n w hrs row hrow
    obtain ⟨row', hrow', hrel⟩ := exists_of_forall₂_right hps hrow
    obtain ⟨hlen, hshape⟩ := hrs row' (hperm.mem_iff.mp hrow')
    refine ⟨hrel.length_eq.symm.trans hlen, fun x hx => ?_⟩
    obtain ⟨x', hx', hx⟩ := exists_of_forall₂_right hrel hx
    exact hx.1.trans (hshape x' hx')
  · rw [← hps.length_eq, hperm.length_eq]
  · intro x hx
    obtain ⟨row, hrow, hxrow⟩ := List.mem_flatten.mp ((hmem x).mpr hx)
    obtain ⟨row', hrow', hrel⟩ := exists_of_forall₂_left hps hrow
    obtain ⟨y, hy, -, hxy⟩ := exists_of_forall₂_left hrel hxrow
    exact mem_preorderAll.mpr ⟨y, List.mem_flatten.mpr ⟨row', hrow', hy⟩, hxy⟩
  · intro y hy
    obtain ⟨row, hrow, hyrow⟩ := List.mem_flatten.mp hy
    refine all_rows.mp (hspec.grown (· ∈ rs.flatten) fun o ho => ?_) row hrow y hyrow
    obtain ⟨a, ha, rfl⟩ := List.mem_map.mp ho
    have ha' := arrange_perm (perm a ha rs.length)
    refine all_rows.mpr fun row hrow x hx => ?_
    exact List.mem_flatten.mpr ⟨row, ha'.mem_iff.mp hrow, hx⟩
  · obtain ⟨c', hc', hlift⟩ := hspec.eval τ
    rw [List.getElem?_map, Option.map_eq_some_iff] at hc'
    obtain ⟨a, ha, rfl⟩ := hc'
    exact ⟨a, ha, lift_rows_rows.mp hlift⟩

/-- Positions of rows can be laid out on the physical side. -/
theorem toPhysical_spec (hc : c.Reorders) (hrs : Rectangular n w rs) (next : Nat) :
    ∃ ps last, c.toPhysical (rows rs) next = .ok (.list (rows ps), last) ∧ next ≤ last ∧
      Laid c Arrangement.physical rs ps :=
  laid_spec hc (fun a ha => (hc.arrangements a ha).physical) hrs next

/-- Positions of rows can be brought back to the logical side. -/
theorem toLogical_spec (hc : c.Reorders) (hrs : Rectangular n w rs) (next : Nat) :
    ∃ ps last, c.toLogical (rows rs) next = .ok (.list (rows ps), last) ∧ next ≤ last ∧
      Laid c Arrangement.logical rs ps :=
  laid_spec hc (fun a ha => (hc.arrangements a ha).logical) hrs next

theorem forall₂_comp {α γ δ : Type} {R : α → γ → Prop} {S : γ → δ → Prop} {xs : List α}
    {ys : List γ} {zs : List δ} (h : List.Forall₂ R xs ys) (h' : List.Forall₂ S ys zs) :
    List.Forall₂ (fun x z => ∃ y, R x y ∧ S y z) xs zs := by
  induction h generalizing zs with
  | nil =>
    cases h'
    exact .nil
  | cons hxy _ ih =>
    cases h' with
    | cons hyz hrest => exact .cons ⟨_, hxy, hyz⟩ (ih hrest)

/-- Whatever is computed from each position on the physical side comes back to that position,
whichever arrangement the selectors pick. -/
theorem Laid.forall₂_back {τ : Hole → Bool} {os ls : List (List Expr)}
    {Q : List Expr → List Expr → Prop} (hc : c.Reorders) (there : Laid c Arrangement.physical rs ps)
    (back : Laid c Arrangement.logical os ls) (h : List.Forall₂ Q ps os) :
    List.Forall₂ (fun row l => ∃ p o, List.Forall₂ (SameValue c.selectors τ) row p ∧ Q p o ∧
      List.Forall₂ (SameValue c.selectors τ) o l) rs ls := by
  obtain ⟨a, ha, hthere⟩ := there.eval τ
  obtain ⟨b, hb, hback⟩ := back.eval τ
  obtain rfl : a = b := Option.some.inj (ha.symm.trans hb)
  have hmem : a ∈ c.arrangements := List.mem_of_getElem? ha
  have hreturn := (hc.arrangements a hmem).forall₂_logical (forall₂_comp hthere h)
  refine (forall₂_comp hreturn hback).imp ?_
  rintro row l ⟨o, ⟨p, hp, hQ⟩, ho⟩
  exact ⟨p, o, hp, hQ, ho⟩

theorem le_twoPow_selectorCount (count : Nat) : count ≤ twoPow (selectorCount count) := by
  rw [selectorCount]
  split
  · assumption
  · rw [twoPow_eq]
    have := Nat.lt_log2_self (n := count - 1)
    omega

/-- New selectors are enough for the arrangements that they are made for. -/
theorem ofList_spec (arrangements : List Arrangement) (ne : arrangements ≠ [])
    (h : ∀ a ∈ arrangements, a.Reorders) (next : Nat) :
    ∃ c last, ofList arrangements next = .ok (c, last) ∧ c.arrangements = arrangements ∧
      c.selectors.length = selectorCount arrangements.length ∧ c.Reorders ∧ next ≤ last ∧
        ∀ s ∈ c.selectors, next ≤ s.tag ∧ s.tag < last := by
  obtain ⟨first, rest, rfl⟩ := List.exists_cons_of_ne_nil ne
  obtain ⟨selectors, last, hbits⟩ := succeeds_newBits (ε := Refusal)
    (selectorCount (first :: rest).length) next
  obtain ⟨hlast, hlen, hall⟩ := of_newBits hbits
  refine ⟨⟨first, rest, selectors⟩, last, ?_, rfl, hlen, ⟨h, fun s hs => (hall s hs).1, ?_⟩,
    by omega, fun s hs => (hall s hs).2⟩
  · rw [ofList, bind_of_ok hbits]
    rfl
  · rw [hlen]
    exact le_twoPow_selectorCount _

end ArrangementChoice
end CircuitSketch
