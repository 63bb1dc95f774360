import CircuitSketch.Proofs.Interface.Chained
import CircuitSketch.Proofs.Template.Bitwise
import CircuitSketch.Template.Carry

/-!
# Sketches around a carry chain

The carry in of a chain is a hole that belongs to its program. What the chain computes between
bitwise functions is given by the entries of their programs and the carry in; the extensions and
the layout of the positions are settled by other holes.
-/
namespace CircuitSketch

open CircuitSketch.Expr Build

/-- The carry in is a single bit. -/
def ChainProgram.Complete (c : ChainProgram) : Prop := c.carryIn.width = 1

/-- The parts of an adder are complete. -/
structure AdderProgram.Complete (a : AdderProgram) : Prop where
  bitwise : a.bitwise.Complete
  chain : a.chain.Complete

/-- The parts of a comparison are complete. -/
structure ComparisonProgram.Complete (c : ComparisonProgram) : Prop where
  di : c.di.Complete
  s : c.s.Complete
  chain : c.chain.Complete

namespace Template

variable {p : Platform} {w next last : Nat} {e y di s sum co out : Expr} {es es' : List Expr}
  {width : Datum} {unit : CarryUnit}

/-- A function of the bits that two words have at each position. -/
theorem map_range_getD (f : Bool → Bool → Bool) {xs ys : List Bool} (hxs : xs.length = w)
    (hys : ys.length = w) :
    ((List.range w).map fun k => f (xs.getD k false) (ys.getD k false)) =
      (xs.zip ys).map fun q => f q.1 q.2 := by
  refine List.ext_getElem (by simp [hxs, hys]) fun k h1 h2 => ?_
  have hk : k < w := by simpa using h1
  simp [List.getD_eq_getElem?_getD, hxs, hys, hk]

/-- The first of two words next to a function of both. -/
theorem zip_map_range_getD (f : Bool → Bool → Bool) {xs ys : List Bool} (hxs : xs.length = w)
    (hys : ys.length = w) :
    xs.zip ((List.range w).map fun k => f (xs.getD k false) (ys.getD k false)) =
      (xs.zip ys).map fun q => (q.1, f q.1 q.2) := by
  rw [map_range_getD f hxs hys, ← List.zip_map', List.map_fst_zip (by omega)]

/-- A word that fits, made as wide as the sketch. -/
structure Widened (w : Nat) (e y : Expr) : Prop where
  shape : y.shape = .word w
  grown : GrownFrom [e] y
  uses : e ∈ y.preorder
  eval : ∀ {env : Valuation} {τ : Hole → Bool} {bits : List Bool},
    eval (.settled env τ) e = .ok (.word bits) → bits.length = e.width →
      eval (.settled env τ) y = .ok (.word (zeroExtend w bits))

theorem of_widen (he : Fits w e) (h : widen e w next = .ok (y, last)) :
    next ≤ last ∧ Widened w e y := by
  rw [widen] at h
  split at h
  · next hw =>
    cases h
    refine ⟨le_rfl, ⟨by rw [he.shape, hw], .operand (by simp), e.mem_preorder_self, ?_⟩⟩
    intro env τ bits hbits hlen
    rw [hbits, zeroExtend, hlen, hw, Nat.sub_self, List.replicate_zero, List.append_nil]
  · cases h
    have hshape : [e].map Expr.shape = [.word e.width] := by rw [List.map_singleton, he.shape]
    refine ⟨by omega, ⟨rfl, .operation ?_ ?_ fun a ha => .operand ha, ?_, ?_⟩⟩
    · rw [hshape]
      exact .zeroExtend he.le
    · rw [hshape]
      exact Op.total_zeroExtend w _
    · simp [mem_preorder_self]
    · intro env τ bits hbits _
      exact eval_node_of_args (.cons hbits .nil)

theorem succeeds_widen (e : Expr) (w : Nat) : (widen e w).Succeeds := by
  rw [widen]
  split
  · exact succeeds_pure e
  · exact succeeds_node _ _ _

/-- A chain between two words whose carry in is the hole of its program. -/
structure ChainOf (p : Platform) (di s : Expr) (given : Option ChainProgram) (next : Nat)
    (sum co : Expr) (unit : CarryUnit) (c : ChainProgram) (w last : Nat) : Prop where
  unit_eq : p.carry = some unit
  data : di.shape = .word w
  complete : c.Complete
  sketched : Sketched [di, s] ((given.map fun g => [g.carryIn]).getD []) [c.carryIn] next last
    [sum, co]
  output : Platform.ChainOutput unit.style (.hole c.carryIn) di s w sum co

variable {given : Option ChainProgram} {c : ChainProgram}

/-- Where the carry in comes from: a new hole, or the one handed in. -/
inductive CarryIn (next : Nat) : Option ChainProgram → Hole → Nat → Prop
  | new : CarryIn next none ⟨next, 1, none⟩ (next + 1)
  | again {c : ChainProgram} : CarryIn next (some c) c.carryIn next

/-- A chain is placed behind its carry in. -/
theorem chainOf_eq_ok : chainOf p di s width given next = .ok ((sum, co, c), last) ↔
    ∃ t, CarryIn next given c.carryIn t ∧
      p.carryChain (.hole c.carryIn) di s width (given.map ChainProgram.carry) t =
        .ok ((sum, co, c.carry), last) := by
  constructor
  · intro h
    cases given with
    | none =>
      obtain ⟨ci, t, hci, h⟩ := of_bind h
      cases hci
      obtain ⟨⟨sum', co', k⟩, t', hrun, h⟩ := of_bind h
      cases h
      exact ⟨_, .new, hrun⟩
    | some g =>
      obtain ⟨ci, t, hci, h⟩ := of_bind h
      cases hci
      obtain ⟨⟨sum', co', k⟩, t', hrun, h⟩ := of_bind h
      cases h
      exact ⟨_, .again, hrun⟩
  · rintro ⟨t, hissued, hrun⟩
    obtain ⟨carry, ci⟩ := c
    cases hissued with
    | new => exact bind_of_ok (f := fun r => pure (r.1, r.2.1, (⟨r.2.2, _⟩ : ChainProgram))) hrun
    | again => exact bind_of_ok (f := fun r => pure (r.1, r.2.1, (⟨r.2.2, _⟩ : ChainProgram))) hrun

theorem chainOf_spec (hgiven : ∀ g ∈ given, g.Complete)
    (h : chainOf p di s width given next = .ok ((sum, co, c), last)) :
    ∃ unit w, width.positive? = some w ∧ ChainOf p di s given next sum co unit c w last := by
  obtain ⟨t, hissued, hrun⟩ := chainOf_eq_ok.mp h
  obtain ⟨unit, w, -, hspec⟩ := Platform.carryChain_spec hrun
  have hlast := hspec.le
  have hcarry : next ≤ t ∧ c.carryIn.width = 1 ∧
      (c.carryIn ∈ (given.map fun g => [g.carryIn]).getD [] ∨
        next ≤ c.carryIn.tag ∧ c.carryIn.tag < t) := by
    generalize c.carryIn = ci at hissued
    cases hissued with
    | new => exact ⟨by omega, rfl, .inr ⟨le_rfl, by simp only; omega⟩⟩
    | again => exact ⟨le_rfl, hgiven _ rfl, .inl (by simp)⟩
  obtain ⟨hle, one, issued⟩ := hcarry
  refine ⟨unit, w, hspec.request.positive, hspec.request.carry, hspec.request.data, one,
    ⟨hle.trans hlast, ?_, fun y hy => ?_⟩, hspec.output⟩
  · intro k hk
    rw [List.mem_singleton] at hk
    subst hk
    exact issued.imp_right fun ⟨hge, hlt⟩ => ⟨hge, by omega⟩
  · refine (hspec.output.grown y hy).trans (fun x hx => ?_) (fun _ => False.elim)
      (fun _ => False.elim)
    rcases List.mem_cons.mp hx with rfl | hx
    · exact .wire (by simp) one
    · exact .operand hx

/-- A program that is handed in is the one that is used. -/
theorem chainOf_kept {g : ChainProgram}
    (h : chainOf p di s width (some g) next = .ok ((sum, co, c), last)) : c = g := by
  obtain ⟨t, hissued, hrun⟩ := chainOf_eq_ok.mp h
  obtain ⟨unit, w, hw, hspec⟩ := Platform.carryChain_spec hrun
  have hfits := hspec.request.fits g.carry rfl
  obtain ⟨⟨v⟩, ci⟩ := g
  obtain ⟨carry, ci'⟩ := c
  cases hissued
  simp only at hw hfits
  rw [hw, hfits]

/-- Words of the same width can be chained with a new program, or with any for that width. -/
theorem chainOf_reusable {di' s' : Expr}
    (h : chainOf p di s width given next = .ok ((sum, co, c), last))
    (hdi : di'.shape = di.shape) (hs : s'.shape = s.shape) (given' : Option ChainProgram)
    (sized : ∀ g ∈ given', g.Complete ∧ g.carry = c.carry) (next' : Nat) :
    ∃ sum' co' c' last', chainOf p di' s' width given' next' = .ok ((sum', co', c'), last') ∧
      c'.carry = c.carry ∧ ∀ g ∈ given', c' = g := by
  obtain ⟨t, hissued, hrun⟩ := chainOf_eq_ok.mp h
  obtain ⟨unit, w, hw, hspec⟩ := Platform.carryChain_spec hrun
  obtain ⟨ci, u, hci, hone, hkept⟩ : ∃ ci u, CarryIn next' given' ci u ∧ ci.width = 1 ∧
      ∀ g ∈ given', (⟨c.carry, ci⟩ : ChainProgram) = g := by
    cases given' with
    | none => exact ⟨_, _, .new, rfl, by simp⟩
    | some g =>
      obtain ⟨hcomplete, hcarry⟩ := sized g rfl
      exact ⟨_, _, .again, hcomplete, by simp [← hcarry]⟩
  have hshape : (Expr.hole ci).shape = (Expr.hole c.carryIn).shape := by
    rw [hspec.request.carryIn, ← hone]
    rfl
  obtain ⟨sum', co', last', hrun'⟩ := Platform.carryChain_reusable hrun hshape hdi hs
    (given'.map ChainProgram.carry) (fun g hg => by
      obtain ⟨k, hk, rfl⟩ := Option.map_eq_some_iff.mp hg
      exact (sized k hk).2) u
  exact ⟨sum', co', ⟨c.carry, ci⟩, last', chainOf_eq_ok.mpr ⟨u, hci, hrun'⟩, rfl, hkept⟩

section Adder

variable {given : Option AdderProgram} {a : AdderProgram} {x : Expr} {wide : List Expr}

/-- A chain between the first input and a bitwise function of all inputs. `wide` are the inputs as
the bitwise function reads them. -/
structure AdderSpec (p : Platform) (x : Expr) (es : List Expr) (w : Nat)
    (given : Option AdderProgram) (next : Nat) (out : Expr) (unit : CarryUnit) (a : AdderProgram)
    (wide : List Expr) (last : Nat) : Prop where
  unit_eq : p.carry = some unit
  extensions : List.Forall₂ (IsExtension w next last) (x :: es) wide
  inputs_eq : a.bitwise.inputs = (x :: es).length
  complete : a.Complete
  shape : out.shape = .word w
  sketched : Sketched (x :: es) ((given.map AdderProgram.holes).getD []) a.holes next last [out]
  uses_wide : ∀ y ∈ wide, y ∈ out.preorder
  wires : ∀ k ∈ a.holes, .hole k ∈ out.preorder
  eval : ∀ (env : Valuation) (τ : Hole → Bool) (first : List Bool) (words : List (List Bool)),
    eval (.settled env τ) x = .ok (.word first) → first.length = x.width →
      List.Forall₂ (fun y b => eval (.settled env τ) y = .ok (.word b) ∧ b.length = w) wide words →
        eval (.settled env τ) out = .ok (.word (unit.style.chain (τ a.chain.carryIn)
          ((zeroExtend w first).zip ((List.range w).map fun i =>
            a.bitwise.read τ (words.map fun b => b.getD i false)))).1)

theorem AdderSpec.uses (h : AdderSpec p x es w given next out unit a wide last) :
    ∀ y ∈ x :: es, y ∈ out.preorder := by
  intro y hy
  obtain ⟨z, hz, t, -, -, rfl⟩ := exists_of_forall₂_left h.extensions hy
  exact mem_preorder_trans (mem_extension y) (h.uses_wide _ hz)

theorem adderOf_spec (hw : 0 < w) (hes : ∀ y ∈ x :: es, Fits w y)
    (hgiven : ∀ g ∈ given, g.Complete)
    (h : adderOf p (x :: es) w given next = .ok ((out, a), last)) :
    ∃ unit wide, AdderSpec p x es w given next out unit a wide last := by
  obtain ⟨⟨s, l⟩, t₁, hs, h⟩ := of_bind h
  obtain ⟨di, t₂, hdi, h⟩ := of_bind h
  obtain ⟨⟨sum, c⟩, t₃, hsum, h⟩ := of_bind h
  cases h
  obtain ⟨⟨sum', co, c'⟩, t₄, hchain, hsum⟩ := of_bind hsum
  cases hsum
  obtain ⟨wide, hbitwise⟩ := bitwiseOf_spec hw hes
    (by cases given with
      | none => simp
      | some g => simpa using (hgiven g rfl).bitwise) hs
  obtain ⟨hle, hwidened⟩ := of_widen (hes x (by simp)) hdi
  obtain ⟨unit, w', hw', hspec⟩ := chainOf_spec
    (by cases given with
      | none => simp
      | some g => simpa using (hgiven g rfl).chain) hchain
  obtain rfl : w = w' := by
    rw [Datum.positive?_int w hw] at hw'
    exact Option.some.inj hw'
  have hsle := hbitwise.sketched.le
  have hcle := hspec.sketched.le
  have huses := hspec.output.uses
  have hmem : s ∈ out.preorder := (huses s (by simp)).1
  refine ⟨unit, wide, hspec.unit_eq, ?_, hbitwise.inputs_eq, ⟨hbitwise.complete, hspec.complete⟩,
    hspec.output.shape_sum, ?_, ?_, ?_, ?_⟩
  · exact hbitwise.extensions.imp fun y z h => h.mono le_rfl (by omega)
  · have hfirst : Sketched (x :: es) ((given.map AdderProgram.holes).getD []) l.table next t₂
        [s, di] := by
      have hdi : Sketched [x] [] [] t₁ t₂ [di] :=
        .of_grown [] hle (List.forall_mem_singleton.mpr hwidened.grown)
      refine hbitwise.sketched.step hdi ?_ (by simp) (by simp) (List.Subset.refl _) (by simp)
        (by simp)
      cases given <;> simp [AdderProgram.holes]
    refine hfirst.step hspec.sketched (List.Subset.refl _) ?_ ?_ (List.Subset.refl _) ?_ ?_
    · cases given <;> simp [AdderProgram.holes]
    · simp [AdderProgram.holes]
    · simp
    · simp
  · exact fun y hy => mem_preorder_trans (hbitwise.uses_wide y hy) hmem
  · intro k hk
    rcases List.mem_append.mp hk with hk | hk
    · exact mem_preorder_trans (hbitwise.wires k hk) hmem
    · rw [List.mem_singleton] at hk
      exact hk ▸ (huses (.hole c.carryIn) (by simp)).1
  · intro env τ first words hfirst hlen hwords
    have hx := (hes x (by simp)).le
    refine (hspec.output.eval (.settled env τ) _ _ _ rfl (eval_settled_hole hspec.complete)
      (hwidened.eval hfirst hlen) (hbitwise.eval env τ words hwords) ?_ (by simp)).1
    exact length_zeroExtend (by omega)

/-- A program that is handed in is the one that is used. -/
theorem adderOf_kept {g : AdderProgram} (hes : ∀ y ∈ es, Fits w y)
    (h : adderOf p es w (some g) next = .ok ((out, a), last)) : a = g := by
  obtain ⟨⟨s, l⟩, t₁, hs, h⟩ := of_bind h
  obtain ⟨di, t₂, hdi, h⟩ := of_bind h
  obtain ⟨⟨sum, c⟩, t₃, hsum, h⟩ := of_bind h
  cases h
  obtain ⟨⟨sum', co, c'⟩, t₄, hchain, hsum⟩ := of_bind hsum
  cases hsum
  rw [bitwiseOf_kept hes hs, chainOf_kept hchain]

/-- As many words that fit the width can be added up with a new program, or with any for as many and
for that width. -/
theorem adderOf_reusable {x' : Expr} (hw : 0 < w) (hes : ∀ y ∈ x :: es, Fits w y)
    (hes' : ∀ y ∈ x' :: es', Fits w y) (hlen : es'.length = es.length)
    (hgiven : ∀ g ∈ given, g.Complete)
    (h : adderOf p (x :: es) w given next = .ok ((out, a), last)) (given' : Option AdderProgram)
    (sized : ∀ g ∈ given', g.Complete ∧ g.bitwise.inputs = (x :: es).length ∧
      g.chain.carry = a.chain.carry) (next' : Nat) :
    ∃ out' a' last', adderOf p (x' :: es') w given' next' = .ok ((out', a'), last') ∧
      a'.chain.carry = a.chain.carry ∧ ∀ g ∈ given', a' = g := by
  obtain ⟨⟨s, l⟩, t₁, hs, h⟩ := of_bind h
  obtain ⟨di, t₂, hdi, h⟩ := of_bind h
  obtain ⟨⟨sum, c⟩, t₃, hsum, h⟩ := of_bind h
  cases h
  obtain ⟨⟨sum', co, c'⟩, t₄, hchain, hsum⟩ := of_bind hsum
  cases hsum
  have hbits : ∀ g ∈ given.map AdderProgram.bitwise, g.Complete := by
    cases given with
    | none => simp
    | some g => simpa using (hgiven g rfl).bitwise
  have hbits' : ∀ g ∈ given'.map AdderProgram.bitwise, g.Complete ∧ g.inputs = (x :: es).length := by
    cases given' with
    | none => simp
    | some g => simpa using ⟨(sized g rfl).1.bitwise, (sized g rfl).2.1⟩
  have hchains' : ∀ g ∈ given'.map AdderProgram.chain, g.Complete ∧ g.carry = c.carry := by
    cases given' with
    | none => simp
    | some g => simpa using ⟨(sized g rfl).1.chain, (sized g rfl).2.2⟩
  obtain ⟨s', l', u₁, hs', hl'⟩ := bitwiseOf_reusable hw hes hes' (by simpa using hlen) hs _
    (fun g hg => (hbits' g hg).1) (fun g hg => (hbits' g hg).2) next'
  obtain ⟨di', u₂, hdi'⟩ := succeeds_widen x' w u₁
  obtain ⟨wide, hspec⟩ := bitwiseOf_spec hw hes hbits hs
  obtain ⟨wide', hspec'⟩ := bitwiseOf_spec hw hes' (fun g hg => (hbits' g hg).1) hs'
  have hshape := (of_widen (hes x (by simp)) hdi).2.shape
  have hshape' := (of_widen (hes' x' (by simp)) hdi').2.shape
  obtain ⟨out', co', c'', last', hchain', hcarry, hc⟩ := chainOf_reusable hchain
    (hshape'.trans hshape.symm) (hspec'.shape.trans hspec.shape.symm) _ hchains' u₂
  refine ⟨out', ⟨l', c''⟩, last', ?_, hcarry, fun g hg => ?_⟩
  · rw [adderOf, bind_of_ok hs']
    simp only [List.headD_cons]
    rw [bind_of_ok hdi', carryOf]
    simp only [bind_assoc]
    rw [bind_of_ok hchain']
    rfl
  · rw [Option.mem_def] at hg
    subst hg
    rw [hl' g.bitwise rfl, hc g.chain rfl]

end Adder

section Comparison

variable {given : Option ComparisonProgram} {c : ComparisonProgram} {wide wide' : List Expr}

/-- The holes of a comparison's program. -/
def comparisonHoles (c : ComparisonProgram) : List Hole :=
  c.di.table ++ c.s.table ++ [c.chain.carryIn]

/-- The carry out of a chain between two bitwise functions of the same inputs. `wide` and `wide'`
are the inputs as they read them. -/
structure ComparisonSpec (p : Platform) (es : List Expr) (w : Nat)
    (given : Option ComparisonProgram) (next : Nat) (out : Expr) (unit : CarryUnit)
    (c : ComparisonProgram) (wide wide' : List Expr) (last : Nat) : Prop where
  unit_eq : p.carry = some unit
  extensions : List.Forall₂ (IsExtension w next last) es wide
  extensions' : List.Forall₂ (IsExtension w next last) es wide'
  inputs_eq : c.di.inputs = es.length ∧ c.s.inputs = es.length
  complete : c.Complete
  shape : out.shape = .word 1
  sketched : Sketched es ((given.map comparisonHoles).getD []) (comparisonHoles c) next last [out]
  uses_wide : ∀ y ∈ wide ++ wide', y ∈ out.preorder
  wires : ∀ k ∈ comparisonHoles c, .hole k ∈ out.preorder
  eval : ∀ (env : Valuation) (τ : Hole → Bool) (words words' : List (List Bool)),
    List.Forall₂ (fun y b => eval (.settled env τ) y = .ok (.word b) ∧ b.length = w) wide words →
      List.Forall₂ (fun y b => eval (.settled env τ) y = .ok (.word b) ∧ b.length = w) wide'
        words' →
        eval (.settled env τ) out = .ok (.word [(unit.style.chain (τ c.chain.carryIn)
          (((List.range w).map fun i => c.di.read τ (words.map fun b => b.getD i false)).zip
            ((List.range w).map fun i => c.s.read τ (words'.map fun b => b.getD i false)))).2])

theorem complete_parts (hgiven : ∀ g ∈ given, g.Complete) :
    (∀ g ∈ given.map ComparisonProgram.di, g.Complete) ∧
      (∀ g ∈ given.map ComparisonProgram.s, g.Complete) ∧
        ∀ g ∈ given.map ComparisonProgram.chain, g.Complete := by
  cases given with
  | none => simp
  | some g =>
    have hg := hgiven g rfl
    simpa using ⟨hg.di, hg.s, hg.chain⟩

theorem comparisonOf_spec (hw : 0 < w) (hes : ∀ y ∈ es, Fits w y)
    (hgiven : ∀ g ∈ given, g.Complete)
    (h : comparisonOf p es w given next = .ok ((out, c), last)) :
    ∃ unit wide wide', ComparisonSpec p es w given next out unit c wide wide' last := by
  obtain ⟨⟨di, l⟩, t₁, hdi, h⟩ := of_bind h
  obtain ⟨⟨s, l'⟩, t₂, hs, h⟩ := of_bind h
  obtain ⟨⟨sum, co, k⟩, t₃, hchain, h⟩ := of_bind h
  cases h
  obtain ⟨hdiGiven, hsGiven, hchainGiven⟩ := complete_parts hgiven
  obtain ⟨wide, hdiSpec⟩ := bitwiseOf_spec hw hes hdiGiven hdi
  obtain ⟨wide', hsSpec⟩ := bitwiseOf_spec hw hes hsGiven hs
  obtain ⟨unit, w', hw', hspec⟩ := chainOf_spec hchainGiven hchain
  obtain rfl : w = w' := by
    rw [Datum.positive?_int w hw] at hw'
    exact Option.some.inj hw'
  have hle₁ := hdiSpec.sketched.le
  have hle₂ := hsSpec.sketched.le
  have hle₃ := hspec.sketched.le
  have huses := hspec.output.uses
  have hdiMem : di ∈ out.preorder := (huses di (by simp)).2
  have hsMem : s ∈ out.preorder := (huses s (by simp)).2
  refine ⟨unit, wide, wide', hspec.unit_eq, ?_, ?_, ⟨hdiSpec.inputs_eq, hsSpec.inputs_eq⟩,
    ⟨hdiSpec.complete, hsSpec.complete, hspec.complete⟩, hspec.output.shape_out, ?_, ?_, ?_, ?_⟩
  · exact hdiSpec.extensions.imp fun y z h => h.mono le_rfl (by omega)
  · exact hsSpec.extensions.imp fun y z h => h.mono hle₁ hle₃
  · have hboth : Sketched es ((given.map comparisonHoles).getD []) (l.table ++ l'.table) next t₂
        [di, s] := by
      refine hdiSpec.sketched.step hsSpec.sketched ?_ ?_ (by simp) (List.Subset.refl _)
        (by simp) (by simp)
      · cases given <;> simp [comparisonHoles]
      · cases given <;> simp [comparisonHoles]
    refine hboth.step hspec.sketched (List.Subset.refl _) ?_ ?_ (List.Subset.refl _) ?_ ?_
    · cases given <;> simp [comparisonHoles]
    · simp [comparisonHoles, or_assoc]
    · simp
    · simp
  · intro y hy
    rcases List.mem_append.mp hy with hy | hy
    · exact mem_preorder_trans (hdiSpec.uses_wide y hy) hdiMem
    · exact mem_preorder_trans (hsSpec.uses_wide y hy) hsMem
  · intro k' hk
    simp only [comparisonHoles, List.mem_append, List.mem_singleton] at hk
    rcases hk with (hk | hk) | rfl
    · exact mem_preorder_trans (hdiSpec.wires k' hk) hdiMem
    · exact mem_preorder_trans (hsSpec.wires k' hk) hsMem
    · exact (huses (.hole k.carryIn) (by simp)).2
  · intro env τ words words' hwords hwords'
    exact (hspec.output.eval (.settled env τ) _ _ _ rfl (eval_settled_hole hspec.complete)
      (hdiSpec.eval env τ words hwords) (hsSpec.eval env τ words' hwords') (by simp)
      (by simp)).2

/-- As many words that fit the width can be compared with a new program, or with any for as many and
for that width. -/
theorem comparisonOf_reusable (hw : 0 < w) (hes : ∀ y ∈ es, Fits w y)
    (hes' : ∀ y ∈ es', Fits w y) (hlen : es'.length = es.length)
    (hgiven : ∀ g ∈ given, g.Complete)
    (h : comparisonOf p es w given next = .ok ((out, c), last)) (given' : Option ComparisonProgram)
    (sized : ∀ g ∈ given', g.Complete ∧ g.di.inputs = es.length ∧ g.s.inputs = es.length ∧
      g.chain.carry = c.chain.carry) (next' : Nat) :
    ∃ out' c' last', comparisonOf p es' w given' next' = .ok ((out', c'), last') ∧
      ∀ g ∈ given', c' = g := by
  obtain ⟨⟨di, l⟩, t₁, hdi, h⟩ := of_bind h
  obtain ⟨⟨s, l'⟩, t₂, hs, h⟩ := of_bind h
  obtain ⟨⟨sum, co, k⟩, t₃, hchain, h⟩ := of_bind h
  cases h
  obtain ⟨hdiGiven, hsGiven, -⟩ := complete_parts hgiven
  obtain ⟨hdiGiven', hsGiven', hchainGiven'⟩ := complete_parts fun g hg => (sized g hg).1
  obtain ⟨wide, hdiSpec⟩ := bitwiseOf_spec hw hes hdiGiven hdi
  obtain ⟨wide', hsSpec⟩ := bitwiseOf_spec hw hes hsGiven hs
  obtain ⟨di', l₁, u₁, hdi', hl₁⟩ := bitwiseOf_reusable hw hes hes' hlen hdi
    (given'.map ComparisonProgram.di) hdiGiven' (fun g hg => by
      obtain ⟨k, hk, rfl⟩ := Option.map_eq_some_iff.mp hg
      exact (sized k hk).2.1) next'
  obtain ⟨s', l₂, u₂, hs', hl₂⟩ := bitwiseOf_reusable hw hes hes' hlen hs
    (given'.map ComparisonProgram.s) hsGiven' (fun g hg => by
      obtain ⟨k, hk, rfl⟩ := Option.map_eq_some_iff.mp hg
      exact (sized k hk).2.2.1) u₁
  obtain ⟨w₁, hdiSpec'⟩ := bitwiseOf_spec hw hes' hdiGiven' hdi'
  obtain ⟨w₂, hsSpec'⟩ := bitwiseOf_spec hw hes' hsGiven' hs'
  obtain ⟨sum', co', c', last', hchain', -, hc⟩ := chainOf_reusable hchain
    (hdiSpec'.shape.trans hdiSpec.shape.symm) (hsSpec'.shape.trans hsSpec.shape.symm)
    (given'.map ComparisonProgram.chain) (fun g hg => by
      obtain ⟨k, hk, rfl⟩ := Option.map_eq_some_iff.mp hg
      exact ⟨hchainGiven' _ hg, (sized k hk).2.2.2⟩) u₂
  refine ⟨co', ⟨l₁, l₂, c'⟩, last', ?_, fun g hg => ?_⟩
  · rw [comparisonOf, bind_of_ok hdi']
    simp only
    rw [bind_of_ok hs']
    simp only
    rw [bind_of_ok hchain']
    rfl
  · rw [Option.mem_def] at hg
    subst hg
    rw [hl₁ g.di rfl, hl₂ g.s rfl, hc g.chain rfl]

end Comparison

section Between

variable {given : Option ChainProgram} {c : ChainProgram} {a b a' b' : Expr}

/-- A carry chain between two inputs that fit the width. -/
def carryBetween (p : Platform) (a b : Expr) (w : Nat) (width : Datum)
    (given : Option ChainProgram) : Build Refusal (Expr × ChainProgram) := do
  let di ← widen a w
  let s ← widen b w
  let (sum, _, program) ← chainOf p di s width given
  pure (sum, program)

/-- What a carry chain between two inputs makes. -/
structure BetweenSpec (p : Platform) (a b : Expr) (w : Nat) (given : Option ChainProgram)
    (next : Nat) (out : Expr) (unit : CarryUnit) (c : ChainProgram) (last : Nat) : Prop where
  unit_eq : p.carry = some unit
  complete : c.Complete
  shape : out.shape = .word w
  sketched : Sketched [a, b] ((given.map fun g => [g.carryIn]).getD []) [c.carryIn] next last [out]
  uses : ∀ x ∈ [a, b], x ∈ out.preorder
  wires : .hole c.carryIn ∈ out.preorder
  eval : ∀ (env : Valuation) (τ : Hole → Bool) (ds es : List Bool),
    eval (.settled env τ) a = .ok (.word ds) → ds.length = a.width →
      eval (.settled env τ) b = .ok (.word es) → es.length = b.width →
        eval (.settled env τ) out = .ok (.word
          (unit.style.chain (τ c.carryIn) ((zeroExtend w ds).zip (zeroExtend w es))).1)

theorem carryBetween_spec (ha : Fits w a) (hb : Fits w b) (hgiven : ∀ g ∈ given, g.Complete)
    (h : carryBetween p a b w width given next = .ok ((out, c), last)) :
    ∃ unit, BetweenSpec p a b w given next out unit c last := by
  obtain ⟨di, t₁, hdi, h⟩ := of_bind h
  obtain ⟨s, t₂, hs, h⟩ := of_bind h
  obtain ⟨⟨sum, co, k⟩, t₃, hchain, h⟩ := of_bind h
  cases h
  obtain ⟨hle₁, hdiSpec⟩ := of_widen ha hdi
  obtain ⟨hle₂, hsSpec⟩ := of_widen hb hs
  obtain ⟨unit, w', hw', hspec⟩ := chainOf_spec hgiven hchain
  obtain rfl : w' = w := by
    rw [← width_of_shape hspec.data, width_of_shape hdiSpec.shape]
  have huses := hspec.output.uses
  refine ⟨unit, hspec.unit_eq, hspec.complete, hspec.output.shape_sum, ?_, ?_,
    (huses (.hole c.carryIn) (by simp)).1, fun env τ ds es ha' hds hb' hes => ?_⟩
  · have hboth : Sketched [a, b] ((given.map fun g => [g.carryIn]).getD []) [] next t₂ [di, s] := by
      refine .of_grown _ (by omega) fun y hy => ?_
      simp only [List.mem_cons, List.not_mem_nil, or_false] at hy
      rcases hy with rfl | rfl
      · exact hdiSpec.grown.mono (by simp) (fun _ h => h) (fun _ h => h)
      · exact hsSpec.grown.mono (by simp) (fun _ h => h) (fun _ h => h)
    exact hboth.step hspec.sketched (List.Subset.refl _) (by simp) (by simp) (List.Subset.refl _)
      (by simp) (by simp)
  · intro x hx
    simp only [List.mem_cons, List.not_mem_nil, or_false] at hx
    rcases hx with rfl | rfl
    · exact mem_preorder_trans hdiSpec.uses (huses di (by simp)).1
    · exact mem_preorder_trans hsSpec.uses (huses s (by simp)).1
  · have hla : ds.length ≤ w' := hds ▸ ha.le
    have hlb : es.length ≤ w' := hes ▸ hb.le
    exact (hspec.output.eval (.settled env τ) _ _ _ rfl (eval_settled_hole hspec.complete)
      (hdiSpec.eval ha' hds) (hsSpec.eval hb' hes) (length_zeroExtend hla)
      (length_zeroExtend hlb)).1

/-- Any words that fit the width can be chained with a new program, or with any for that width. -/
theorem carryBetween_reusable (ha : Fits w a) (hb : Fits w b) (ha' : Fits w a') (hb' : Fits w b')
    (h : carryBetween p a b w width given next = .ok ((out, c), last)) (given' : Option ChainProgram)
    (sized : ∀ g ∈ given', g.Complete ∧ g.carry = c.carry) (next' : Nat) :
    ∃ out' c' last', carryBetween p a' b' w width given' next' = .ok ((out', c'), last') ∧
      ∀ g ∈ given', c' = g := by
  obtain ⟨di, t₁, hdi, h⟩ := of_bind h
  obtain ⟨s, t₂, hs, h⟩ := of_bind h
  obtain ⟨⟨sum, co, k⟩, t₃, hchain, h⟩ := of_bind h
  cases h
  obtain ⟨di', u₁, hdi'⟩ := succeeds_widen a' w next'
  obtain ⟨s', u₂, hs'⟩ := succeeds_widen b' w u₁
  obtain ⟨out', co', c', last', hchain', -, hc⟩ := chainOf_reusable hchain
    ((of_widen ha' hdi').2.shape.trans (of_widen ha hdi).2.shape.symm)
    ((of_widen hb' hs').2.shape.trans (of_widen hb hs).2.shape.symm) given' sized u₂
  refine ⟨out', c', last', ?_, hc⟩
  rw [carryBetween, bind_of_ok hdi', bind_of_ok hs', bind_of_ok hchain']
  rfl

end Between

end Template
end CircuitSketch
