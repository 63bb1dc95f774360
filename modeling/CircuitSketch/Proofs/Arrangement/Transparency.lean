import CircuitSketch.Proofs.Arrangement.Reordering
import CircuitSketch.Proofs.Interface.Programmed

/-!
# What the holes pick does not show

Whatever the selectors of a choice are assigned, both of its ways are those of one arrangement,
which depends on the selectors only. So what has been computed for the positions on the physical
side comes back to the logical positions that it was computed for.
-/
namespace CircuitSketch

open CircuitSketch.Expr Build

/-- The values of the leaves of a nest. -/
inductive NestValue
  | leaf (v : Value Bool)
  | list (items : List NestValue)

/-- A nest evaluates to values, leaf by leaf. -/
inductive Nest.HasValue (c : Context Bool) : Nest → NestValue → Prop
  | leaf {e : Expr} {v : Value Bool} (h : eval c e = .ok v) : HasValue c (.leaf e) (.leaf v)
  | nil : HasValue c (.list []) (.list [])
  | cons {a : Nest} {v : NestValue} {as : List Nest} {vs : List NestValue} (head : HasValue c a v)
      (tail : HasValue c (.list as) (.list vs)) : HasValue c (.list (a :: as)) (.list (v :: vs))

/-- Two expressions evaluate alike. -/
def Context.Alike (c : Context Bool) (x y : Expr) : Prop := eval c y = eval c x

namespace Nest

variable {c : Context Bool} {a b : Nest} {v : NestValue} {R S : Expr → Expr → Prop}

theorem Lift.imp (h : a.Lift R b) (himp : ∀ x y, R x y → S x y) : a.Lift S b := by
  induction h with
  | leaf h => exact .leaf (himp _ _ h)
  | nil => exact .nil
  | cons _ _ head tail => exact .cons head tail

/-- Nests whose leaves evaluate alike have the same values. -/
theorem Lift.hasValue_iff (h : a.Lift c.Alike b) : a.HasValue c v ↔ b.HasValue c v := by
  induction h generalizing v with
  | leaf h =>
    constructor
    · rintro ⟨hv⟩
      exact .leaf (h.trans hv)
    · rintro ⟨hv⟩
      exact .leaf (h.symm.trans hv)
  | nil => exact ⟨id, id⟩
  | cons _ _ head tail =>
    constructor
    · intro hv
      cases hv with
      | cons hhead htail => exact .cons (head.mp hhead) (tail.mp htail)
    · intro hv
      cases hv with
      | cons hhead htail => exact .cons (head.mpr hhead) (tail.mpr htail)

end Nest

theorem Assignment.selects {env : Valuation} {σ : Assignment} {modules : ModuleTable}
    {ss : List Hole} (ones : ∀ s ∈ ss, s.width = 1) (covers : σ.Covers ss) :
    (Context.concrete env σ modules).Selects ss σ.truth := by
  intro s hs
  rw [selectorBit, show (Context.concrete env σ modules).decision s = some [σ.truth s] from
    bits?_eq_truth (covers s hs) (ones s hs)]

namespace ArrangementChoice

open Nest

/-- Positions of one form, with words of one width for leaves that correspond to each other. -/
def EquallyShaped (positions : List Nest) : Prop :=
  ∀ x ∈ positions, ∀ y ∈ positions, x.Lift SameWord y

/-- Both ways of a choice are those of one arrangement: laid out positions evaluate to the positions
that it names, and what is computed for laid out positions comes back to where they were. -/
structure Follows (m : ArrangementChoice) (c : Context Bool) (a : Arrangement) : Prop where
  physical : ∀ {xs ps : List Nest} {t t' : Nat}, EquallyShaped xs →
    m.toPhysical xs t = .ok (.list ps, t') →
      List.Forall₂ (Lift c.Alike) (arrange a.physical xs) ps
  logical : ∀ {xs ls : List Nest} {t t' : Nat}, EquallyShaped xs →
    m.toLogical xs t = .ok (.list ls, t') →
      List.Forall₂ (Lift c.Alike) (arrange a.logical xs) ls
  back : ∀ {xs ps ys ls : List Nest} {t t' u u' : Nat} (g : NestValue → NestValue),
    EquallyShaped xs → EquallyShaped ys → m.toPhysical xs t = .ok (.list ps, t') →
      m.toLogical ys u = .ok (.list ls, u') →
        List.Forall₂ (fun p y => ∃ v, p.HasValue c v ∧ y.HasValue c (g v)) ps ys →
          List.Forall₂ (fun x l => ∃ v, x.HasValue c v ∧ l.HasValue c (g v)) xs ls

variable {m : ArrangementChoice} {order : Arrangement → Nat → List Nat} {xs : List Nest}

/-- Positions of one form are laid out as the arrangement says that the selectors pick. -/
theorem layout_list (hm : m.Reorders)
    (perm : ∀ a ∈ m.arrangements, ∀ n, (order a n).Perm (List.range n)) (form : EquallyShaped xs)
    (next : Nat) :
    ∃ ps last, m.layout order xs next = .ok (.list ps, last) ∧ ∀ τ, ∃ a ∈ m.active τ,
      List.Forall₂ (Lift (SameValue m.selectors τ)) (arrange (order a) xs) ps := by
  obtain ⟨r, last, hrun, -, hspec⟩ := layout_spec hm perm form next
  obtain ⟨ps, rfl, -⟩ := lift_list.mp (hspec.uses _ (List.mem_map_of_mem (List.mem_cons_self ..)))
  refine ⟨ps, last, hrun, fun τ => ?_⟩
  obtain ⟨candidate, hcandidate, hlift⟩ := hspec.eval τ
  rw [List.getElem?_map, Option.map_eq_some_iff] at hcandidate
  obtain ⟨a, ha, rfl⟩ := hcandidate
  obtain ⟨ps', hps, hall⟩ := lift_list.mp hlift
  rw [Nest.list.injEq] at hps
  exact ⟨a, ha, hps ▸ hall⟩

/-- Both ways follow the arrangement that the selectors pick. -/
theorem Reorders.follows (hm : m.Reorders) {c : Context Bool} {τ : Hole → Bool} {a : Arrangement}
    (hselects : c.Selects m.selectors τ) (ha : a ∈ m.active τ) : m.Follows c a := by
  have halike : ∀ {order : Arrangement → Nat → List Nat} {xs ps : List Nest} {t t' : Nat},
      (∀ a ∈ m.arrangements, ∀ n, (order a n).Perm (List.range n)) → EquallyShaped xs →
        m.layout order xs t = .ok (.list ps, t') →
          List.Forall₂ (Lift c.Alike) (arrange (order a) xs) ps := by
    intro order xs ps t t' perm form hrun
    obtain ⟨ps', last, hrun', heval⟩ := layout_list hm perm form t
    rw [hrun] at hrun'
    cases hrun'
    obtain ⟨b, hb, hall⟩ := heval τ
    obtain rfl : a = b := Option.some.inj (ha.symm.trans hb)
    exact hall.imp fun _ _ h => h.imp fun _ _ hsame => hsame c hselects
  have hreorders : ∀ a ∈ m.arrangements, a.Reorders := hm.arrangements
  have physical : ∀ {xs ps : List Nest} {t t' : Nat}, EquallyShaped xs →
      m.toPhysical xs t = .ok (.list ps, t') →
        List.Forall₂ (Lift c.Alike) (arrange a.physical xs) ps :=
    fun form hrun => halike (fun b hb => (hreorders b hb).physical) form hrun
  have logical : ∀ {xs ls : List Nest} {t t' : Nat}, EquallyShaped xs →
      m.toLogical xs t = .ok (.list ls, t') →
        List.Forall₂ (Lift c.Alike) (arrange a.logical xs) ls :=
    fun form hrun => halike (fun b hb => (hreorders b hb).logical) form hrun
  refine ⟨physical, logical, fun g hxs hys hps hls hvalues => ?_⟩
  have hthere := (hreorders a (List.mem_of_getElem? ha)).forall₂_logical
    (forall₂_comp (physical hxs hps) hvalues)
  refine (forall₂_comp hthere (logical hys hls)).imp ?_
  rintro x l ⟨y, ⟨p, hxp, v, hv, hy⟩, hyl⟩
  exact ⟨v, hxp.hasValue_iff.mpr hv, hyl.hasValue_iff.mp hy⟩

/-- A choice among arrangements that only reorder has as many selectors as it needs, so positions of
one form can always be laid out and brought back. Under every assignment to its selectors both ways
follow one of the arrangements, which is the one that the selectors encode if they encode one. -/
theorem ofList_follows {as : List Arrangement} (ne : as ≠ []) (has : ∀ a ∈ as, a.Reorders)
    (next : Nat) :
    ∃ m last, ofList as next = .ok (m, last) ∧ m.selectors.length = selectorCount as.length ∧
      (∀ xs, EquallyShaped xs → ∀ t,
        (∃ ps t', m.toPhysical xs t = .ok (.list ps, t')) ∧
          ∃ ls t', m.toLogical xs t = .ok (.list ls, t')) ∧
      ∀ σ : Assignment, σ.Covers m.selectors → ∃ k a, as[k]? = some a ∧
        (Word.toNat (m.selectors.map σ.truth) < as.length →
          k = Word.toNat (m.selectors.map σ.truth)) ∧
        ∀ env modules, m.Follows (.concrete env σ modules) a := by
  obtain ⟨m, last, hrun, harrangements, hcount, hm, -⟩ := ofList_spec as ne has next
  refine ⟨m, last, hrun, hcount, fun xs form t => ⟨?_, ?_⟩, fun σ covers => ?_⟩
  · obtain ⟨ps, t', hps, -⟩ :=
      layout_list hm (fun a ha => (hm.arrangements a ha).physical) form t
    exact ⟨ps, t', hps⟩
  · obtain ⟨ls, t', hls, -⟩ :=
      layout_list hm (fun a ha => (hm.arrangements a ha).logical) form t
    exact ⟨ls, t', hls⟩
  · have hlt : pickedIndex σ.truth m.selectors as.length < as.length :=
      pickedIndex_lt (List.length_pos_iff.mpr ne)
    have hactive : as[pickedIndex σ.truth m.selectors as.length] ∈ m.active σ.truth := by
      rw [active, harrangements]
      exact List.getElem?_eq_getElem hlt
    refine ⟨_, _, List.getElem?_eq_getElem hlt, pickedIndex_eq_toNat, fun env modules => ?_⟩
    exact hm.follows (Assignment.selects hm.ones covers) hactive

/-- Two selectors tell three arrangements apart. The lower one alone picks the second. -/
theorem ofList_follows_reversed : ∃ m last,
    ofList [.identity, .reversed, .identity] 0 = .ok (m, last) ∧ m.selectors.length = 2 ∧
      ∀ env modules, m.Follows
        (.concrete env (.ofTruth m.selectors fun s => s.tag == 0) modules) .reversed := by
  have has : ∀ a ∈ [Arrangement.identity, .reversed, .identity], a.Reorders := by
    simp [Arrangement.reorders_identity, Arrangement.reorders_reversed]
  obtain ⟨m, last, hrun, hcount, -, hfollows⟩ := ofList_follows (by simp) has 0
  have hnew : ofList [Arrangement.identity, .reversed, .identity] 0 =
      .ok (⟨.identity, [.reversed, .identity], [⟨0, 1, none⟩, ⟨1, 1, none⟩]⟩, 2) := rfl
  obtain rfl : m = ⟨.identity, [.reversed, .identity], [⟨0, 1, none⟩, ⟨1, 1, none⟩]⟩ := by
    rw [hnew] at hrun
    cases hrun
    rfl
  obtain ⟨k, a, ha, hk, hboth⟩ :=
    hfollows (.ofTruth _ fun s => s.tag == 0) (Assignment.covers_ofTruth (List.Subset.refl _))
  rw [List.map_congr_left fun s hs => Assignment.truth_ofTruth hs] at hk
  obtain rfl : k = 1 := hk (by decide)
  obtain rfl : a = .reversed := (Option.some.inj ha).symm
  exact ⟨_, last, hrun, hcount, hboth⟩

end ArrangementChoice
end CircuitSketch
