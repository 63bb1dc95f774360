import CircuitSketch.Evaluation.Solve
import CircuitSketch.Proofs.Evaluation.Total

/-!
# Expressions grown from operands

A sketch is built on top of given operands. What it adds are operations that always have a value,
wired holes, and choices settled by holes that serve no other purpose. From this alone it follows
that a sketch is well-formed, that it has a value as soon as its operands have values, and where its
holes come from.
-/
namespace CircuitSketch.Expr

/-- An expression built on operands. `wired` are the holes that may be wired into it, and `chosen`
those that may settle its choices. -/
inductive Grown (operand : Expr → Prop) (wired chosen : Hole → Prop) : Expr → Prop
  | operand {e : Expr} (mem : operand e) : Grown operand wired chosen e
  | wire {h : Hole} (mem : wired h) (one : h.width = 1) : Grown operand wired chosen (hole h)
  | operation {t : Nat} {op : Op} {s : Shape} {args : List Expr} (typed : op.Typed (args.map shape) s)
      (total : op.Total (args.map shape)) (grown : ∀ a ∈ args, Grown operand wired chosen a) :
      Grown operand wired chosen (node t op s args)
  | choice {t w : Nat} {a b : Expr} {s : Hole} (left : a.shape = .word w)
      (right : b.shape = .word w) (one : s.width = 1) (mem : chosen s)
      (ifZero : Grown operand wired chosen a) (ifOne : Grown operand wired chosen b) :
      Grown operand wired chosen (choose t w a b s)

theorem mem_selectors {k : Hole} {e : Expr} :
    k ∈ e.selectors ↔ ∃ t w a b, choose t w a b k ∈ e.preorder := by
  simp only [selectors, List.mem_filterMap, mem_walk]
  constructor
  · rintro ⟨x, hx, hk⟩
    cases x with
    | choose t w a b s =>
      rw [Option.some.injEq] at hk
      exact ⟨t, w, a, b, hk ▸ hx⟩
    | _ => cases hk
  · rintro ⟨t, w, a, b, hx⟩
    exact ⟨_, hx, rfl⟩

theorem mem_holes_of_mem_selectors {k : Hole} {e : Expr} (h : k ∈ e.selectors) : k ∈ e.holes := by
  obtain ⟨t, w, a, b, hx⟩ := mem_selectors.mp h
  exact mem_holes.mpr (mem_preorder_trans (by simp) hx)

namespace Grown

variable {P Q : Expr → Prop} {wired wired' chosen chosen' : Hole → Prop} {e : Expr}

/-- What is grown from operands that are grown themselves is grown from their operands. -/
theorem trans (h : Grown P wired chosen e) (hP : ∀ x, P x → Grown Q wired' chosen' x)
    (hw : ∀ k, wired k → wired' k) (hc : ∀ k, chosen k → chosen' k) :
    Grown Q wired' chosen' e := by
  induction h with
  | operand mem => exact hP _ mem
  | wire mem one => exact .wire (hw _ mem) one
  | operation typed total _ ih => exact .operation typed total ih
  | choice left right one mem _ _ iha ihb => exact .choice left right one (hc _ mem) iha ihb

theorem mono (h : Grown P wired chosen e) (hP : ∀ x, P x → Q x)
    (hw : ∀ k, wired k → wired' k) (hc : ∀ k, chosen k → chosen' k) :
    Grown Q wired' chosen' e :=
  h.trans (fun x hx => .operand (hP x hx)) hw hc

theorem wellFormed (h : Grown P wired chosen e) (hP : ∀ x, P x → x.WellFormed) :
    e.WellFormed := by
  induction h with
  | operand mem => exact hP _ mem
  | wire mem one => exact wellFormed_hole.mpr (by omega)
  | operation typed total _ ih => exact wellFormed_node.mpr ⟨typed, ih⟩
  | choice left right one mem _ _ iha ihb =>
    exact wellFormed_choose.mpr ⟨⟨left, right, one⟩, iha, ihb⟩

/-- A hole comes with an operand, is wired, or settles a choice. -/
theorem of_mem_holes (h : Grown P wired chosen e) {k : Hole} (hk : hole k ∈ e.preorder) :
    (∃ x, P x ∧ hole k ∈ x.preorder) ∨ wired k ∨ k ∈ e.selectors := by
  induction h with
  | operand mem => exact .inl ⟨_, mem, hk⟩
  | wire mem one =>
    rw [mem_preorder_hole, Expr.hole.injEq] at hk
    exact .inr (.inl (hk ▸ mem))
  | @operation t op s args typed total _ ih =>
    obtain ⟨a, ha, hka⟩ := (mem_preorder_node.mp hk).resolve_left (by simp)
    rcases ih a ha hka with hx | hx | hx
    · exact .inl hx
    · exact .inr (.inl hx)
    · obtain ⟨t', w, x, y, hx⟩ := mem_selectors.mp hx
      exact .inr (.inr (mem_selectors.mpr ⟨t', w, x, y,
        mem_preorder_node.mpr (.inr ⟨a, ha, hx⟩)⟩))
  | @choice t w a b s left right one mem _ _ iha ihb =>
    have lift {x : Expr} (hsub : ∀ y ∈ x.preorder, y ∈ (choose t w a b s).preorder)
        (hx : k ∈ x.selectors) : k ∈ (choose t w a b s).selectors := by
      obtain ⟨t', w', y, z, hy⟩ := mem_selectors.mp hx
      exact mem_selectors.mpr ⟨t', w', y, z, hsub _ hy⟩
    rcases mem_preorder_choose.mp hk with hk | hk | hk | hk
    · cases hk
    · rcases iha hk with hx | hx | hx
      · exact .inl hx
      · exact .inr (.inl hx)
      · exact .inr (.inr (lift (fun y hy => mem_preorder_choose.mpr (.inr (.inl hy))) hx))
    · rcases ihb hk with hx | hx | hx
      · exact .inl hx
      · exact .inr (.inl hx)
      · exact .inr (.inr (lift (fun y hy => mem_preorder_choose.mpr (.inr (.inr (.inl hy)))) hx))
    · rw [Expr.hole.injEq] at hk
      exact .inr (.inr (mem_selectors.mpr ⟨t, w, a, b, hk ▸ mem_preorder_self _⟩))

/-- A hole that does not come with an operand has one bit. -/
theorem width_of_mem_holes (h : Grown P wired chosen e) {k : Hole} (hk : hole k ∈ e.preorder) :
    (∃ x, P x ∧ hole k ∈ x.preorder) ∨ k.width = 1 := by
  induction h with
  | operand mem => exact .inl ⟨_, mem, hk⟩
  | wire mem one =>
    rw [mem_preorder_hole, Expr.hole.injEq] at hk
    exact .inr (hk ▸ one)
  | operation typed total _ ih =>
    obtain ⟨a, ha, hka⟩ := (mem_preorder_node.mp hk).resolve_left (by simp)
    exact ih a ha hka
  | choice left right one mem _ _ iha ihb =>
    rcases mem_preorder_choose.mp hk with hk | hk | hk | hk
    · cases hk
    · exact iha hk
    · exact ihb hk
    · rw [Expr.hole.injEq] at hk
      exact .inr (hk ▸ one)

/-- What settles a choice settles one of an operand or is there for that purpose. -/
theorem of_mem_selectors (h : Grown P wired chosen e) {k : Hole} (hk : k ∈ e.selectors) :
    (∃ x, P x ∧ k ∈ x.selectors) ∨ chosen k := by
  obtain ⟨t', w', y, z, hx⟩ := mem_selectors.mp hk
  clear hk
  induction h with
  | operand mem => exact .inl ⟨_, mem, mem_selectors.mpr ⟨t', w', y, z, hx⟩⟩
  | wire mem one => cases mem_preorder_hole.mp hx
  | operation typed total _ ih =>
    obtain ⟨a, ha, hxa⟩ := (mem_preorder_node.mp hx).resolve_left (by simp)
    exact ih a ha hxa
  | choice left right one mem _ _ iha ihb =>
    rcases mem_preorder_choose.mp hx with hx | hx | hx | hx
    · cases hx
      exact .inr mem
    · exact iha hx
    · exact ihb hx
    · cases hx

/-- A hole comes with an operand, is wired or is there to settle a choice. -/
theorem source_of_mem_holes (h : Grown P wired chosen e) {k : Hole} (hk : k ∈ e.holes) :
    (∃ x, P x ∧ k ∈ x.holes) ∨ wired k ∨ chosen k := by
  rcases h.of_mem_holes (mem_holes.mp hk) with ⟨x, hx, hkx⟩ | hwired | hselects
  · exact .inl ⟨x, hx, mem_holes.mpr hkx⟩
  · exact .inr (.inl hwired)
  · rcases h.of_mem_selectors hselects with ⟨x, hx, hkx⟩ | hchosen
    · exact .inl ⟨x, hx, mem_holes_of_mem_selectors hkx⟩
    · exact .inr (.inr hchosen)

variable {β : Type} [BitAlgebra β] {c : Context β}

/-- A choice between words that have values has a value once its selector is settled. -/
theorem eval_choose {t w : Nat} {a b : Expr} {s : Hole} (hc : c.Sized) (one : s.width = 1)
    {bits x y : List β} (hs : c.decision s = some bits) (ha : eval c a = .ok (.word x))
    (hb : eval c b = .ok (.word y)) : ∃ v, eval c (choose t w a b s) = .ok v := by
  obtain ⟨bit, rfl⟩ := List.length_eq_one_iff.mp ((hc s bits hs).trans one)
  have hbit : selectorBit c s = .ok bit := by rw [selectorBit, hs]
  rw [eval, hbit]
  cases hconst : BitAlgebra.constant? bit with
  | none => exact ⟨_, by simp only [hconst, ha, hb]; rfl⟩
  | some z =>
    cases z with
    | false => exact ⟨_, by simp only [hconst]; exact ha⟩
    | true => exact ⟨_, by simp only [hconst]; exact hb⟩

/-- A grown expression has a value over every bit algebra, once its holes are settled and its
operands have values. -/
theorem exists_eval (h : Grown P wired chosen e) (hc : c.Sized)
    (hm : c.modules = Primitive.standard) (hP : ∀ x, P x → x.WellFormed ∧ ∃ v, eval c x = .ok v)
    (hd : ∀ k, hole k ∈ e.preorder → ∃ bits, c.decision k = some bits) :
    ∃ v, eval c e = .ok v := by
  have hwf : ∀ x, P x → x.WellFormed := fun x hx => (hP x hx).1
  induction h with
  | operand mem => exact (hP _ mem).2
  | wire mem one =>
    obtain ⟨bits, hbits⟩ := hd _ (mem_preorder_self _)
    rw [eval, hbits]
    exact ⟨_, rfl⟩
  | @operation t op s args typed total grown ih =>
    have hargs : ∀ a ∈ args, ∃ v, eval c a = .ok v ∧ v.HasShape a.shape := by
      intro a ha
      obtain ⟨v, hv⟩ := ih a ha fun k hk => hd k (mem_preorder_node.mpr (.inr ⟨a, ha, hk⟩))
      exact ⟨v, hv, eval_hasShape hc ((grown a ha).wellFormed hwf) hv⟩
    obtain ⟨values, hvalues⟩ : ∃ values : List (Value β),
        List.Forall₂ (fun a v => eval c a = .ok v ∧ Value.HasShape v a.shape) args values := by
      clear typed total grown ih hd
      induction args with
      | nil => exact ⟨[], .nil⟩
      | cons a args ihargs =>
        obtain ⟨v, hv⟩ := hargs a (by simp)
        obtain ⟨rest, hrest⟩ := ihargs fun x hx => hargs x (by simp [hx])
        exact ⟨v :: rest, .cons hv hrest⟩
    have hall := evalAll_eq_ok.mpr (hvalues.imp fun _ _ hv => hv.1)
    obtain ⟨v, hv⟩ := total c hm values
      (List.forall₂_map_right_iff.mpr (hvalues.imp fun _ _ hv => hv.2).flip)
    exact ⟨v, by rw [eval, hall]; exact hv⟩
  | @choice t w a b s left right one mem ga gb iha ihb =>
    obtain ⟨x, hx⟩ := iha fun k hk => hd k (mem_preorder_choose.mpr (.inr (.inl hk)))
    obtain ⟨y, hy⟩ := ihb fun k hk => hd k (mem_preorder_choose.mpr (.inr (.inr (.inl hk))))
    obtain ⟨bits, hbits⟩ := hd s (by simp)
    have hxs := eval_hasShape hc (ga.wellFormed hwf) hx
    have hys := eval_hasShape hc (gb.wellFormed hwf) hy
    rw [left] at hxs
    rw [right] at hys
    obtain ⟨x, rfl, -⟩ := hxs.exists_word
    obtain ⟨y, rfl, -⟩ := hys.exists_word
    exact eval_choose hc one hbits hx hy

end Grown
end CircuitSketch.Expr
