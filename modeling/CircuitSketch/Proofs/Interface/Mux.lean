import CircuitSketch.Proofs.Interface.Lut

/-!
# Placed multiplexers

A multiplexer of two inputs is a lookup in a list of two or a lookup table of three inputs, as the
platform builds them. As fixed hardware it has nothing to program; a program that is handed in is
passed on as it is.
-/
namespace CircuitSketch

theorem MuxProgram.holes_of_some {m : MuxProgram} {l : LutProgram} (h : m.lut = some l) :
    m.holes = l.table := by
  rw [holes, h]

namespace Platform

open CircuitSketch.Expr Build

variable {p : Platform} {a b s out : Expr} {given : Option MuxProgram} {m : MuxProgram}
  {next last : Nat}

/-- A multiplexer as fixed hardware. -/
def nativeMux (t : Nat) (a b s : Expr) : Expr :=
  .node (t + 1) .lookup (.word 1) [.node t .list (.list 1 2) [a, b], s]

theorem grown_nativeMux (t : Nat) (ha : a.shape = .word 1) (hb : b.shape = .word 1)
    (hs : s.shape = .word 1) : GrownFrom [a, b, s] (nativeMux t a b s) := by
  have hlist : GrownFrom [a, b, s] (.node t .list (.list 1 2) [a, b]) := by
    have hsub : [a, b] ⊆ [a, b, s] := by simp
    refine .operation ?_ ?_ fun x hx => .operand (hsub hx)
    · rw [List.map_cons, List.map_singleton, ha, hb]
      exact .list (w := 1) (n := 2) (by omega)
    · rw [List.map_cons, List.map_singleton, ha, hb]
      exact Op.total_list [1, 1]
  refine .operation ?_ ?_ fun x hx => ?_
  · rw [List.map_cons, List.map_singleton, hs]
    exact .lookup
  · rw [List.map_cons, List.map_singleton, hs]
    exact Op.total_lookup 1 2 1
  · simp only [List.mem_cons, List.not_mem_nil, or_false] at hx
    rcases hx with rfl | rfl
    · exact hlist
    · exact .operand (by simp)

theorem eval_nativeMux {c : Context Bool} (t : Nat) {x y z : Bool}
    (ha : eval c a = .ok (.word [x])) (hb : eval c b = .ok (.word [y]))
    (hs : eval c s = .ok (.word [z])) :
    eval c (nativeMux t a b s) = .ok (.word [if z then y else x]) := by
  have hlist : eval c (.node t .list (.list 1 2) [a, b]) = .ok (.list [[x], [y]]) :=
    eval_node_of_args (.cons ha (.cons hb .nil))
  rw [nativeMux, eval_node_of_args (.cons hlist (.cons hs .nil))]
  cases z <;> rfl

/-- The ports of a multiplexer. -/
def muxPorts (count : Nat) : List (String × Nat) := inputPorts count ++ [("S", selectWidth count)]

/-- The words that are wired to a multiplexer: its inputs, and last what selects one of them. -/
theorem of_wire_mux {r : Request} {ports : List (String × Operand)} {n : Nat} {words : List Expr}
    (h : r.wire ports (muxPorts n) = .ok words) :
    (words.take n).length = n ∧ (∀ x ∈ words.take n, x.shape = .word 1) ∧
      words.getLastD default ∈ words ∧ (words.getLastD default).shape = .word (selectWidth n) := by
  have hall := (Request.forall₂_of_wire h).flip
  have hlen : (inputPorts n).length = n := by simp [inputPorts]
  have hinputs := List.forall₂_take_append _ _ _ hall
  have hselect := List.forall₂_drop_append _ _ _ hall
  rw [hlen] at hinputs hselect
  obtain ⟨x, rest, hx, hrest, hdrop⟩ := List.forall₂_cons_right_iff.mp hselect
  obtain rfl := List.forall₂_nil_right_iff.mp hrest
  have hlast : words.getLastD default = x := by
    rw [← List.take_append_drop n words, hdrop, List.getLastD_concat]
  have hmem : x ∈ words := List.mem_of_mem_drop (hdrop ▸ List.mem_singleton_self x)
  refine ⟨hinputs.length_eq.trans hlen, fun y hy => ?_, hlast ▸ hmem, hlast ▸ hx.2⟩
  obtain ⟨e, he, -, hshape⟩ := exists_of_forall₂_left hinputs hy
  obtain ⟨i, -, rfl⟩ := List.mem_map.mp he
  exact hshape

/-- The ways in which a multiplexer between words, the last of which selects, is built. -/
inductive MuxBuilt (p : Platform) (style : MuxStyle) (count : Nat) (words : List Expr)
    (given : Option MuxProgram) (next : Nat) : MuxProgram → Expr → Nat → Prop
  | native {items : Expr} (is : style = .native)
      (made : (Build.list (words.take count) : Build Refusal Expr) next = .ok (items, next + 1)) :
      MuxBuilt p style count words given next (given.getD ⟨count, none⟩)
        (.node (next + 1) .lookup (.word items.width) [items, words.getLastD default]) (next + 2)
  | new {selectBits : List Expr} {l : LutProgram} {out : Expr} {mid last : Nat} (is : style = .lut)
      (fresh : given = none)
      (cut : (Build.bits (words.getLastD default) : Build Refusal (List Expr)) next =
        .ok (selectBits, mid))
      (placed : p.lut (words.take count ++ selectBits) none mid = .ok ((out, l), last)) :
      MuxBuilt p style count words given next ⟨count, some l⟩ out last
  | again {selectBits : List Expr} {m : MuxProgram} {l : LutProgram} {out : Expr} {mid last : Nat}
      (is : style = .lut) (handed : given = some m) (table : m.lut = some l)
      (cut : (Build.bits (words.getLastD default) : Build Refusal (List Expr)) next =
        .ok (selectBits, mid))
      (placed : p.lut (words.take count ++ selectBits) (some l) mid = .ok ((out, l), last)) :
      MuxBuilt p style count words given next m out last

/-- The multiplexer that a request is met with. -/
theorem of_buildMux {style : MuxStyle} {r : Request} {ports : List (String × Operand)}
    (h : p.buildMux style r ports given next = .ok ((out, m), last)) :
    ∃ count words, r.positive "num_inputs" = .ok count ∧ 2 ≤ count ∧
      r.wire ports (muxPorts count) = .ok words ∧ (∀ g ∈ given, g.inputs = (count : Int)) ∧
        MuxBuilt p style count words given next m out last := by
  rw [buildMux] at h
  obtain ⟨count, _, hrequest, h⟩ := of_bind h
  obtain ⟨hcount, rfl⟩ := of_lift hrequest
  split at h
  · cases h
  next htwo =>
  obtain ⟨words, _, hports, h⟩ := of_bind h
  obtain ⟨hwired, rfl⟩ := of_lift hports
  refine ⟨count, words, hcount, by omega, hwired, ?_⟩
  cases given with
  | none =>
    refine ⟨by simp, ?_⟩
    cases style with
    | native =>
      obtain ⟨items, mid, hitems, h⟩ := of_bind h
      cases hitems
      cases h
      exact .native rfl rfl
    | lut =>
      obtain ⟨selectBits, mid, hbits, h⟩ := of_bind h
      obtain ⟨⟨o, l⟩, stop, hl, h⟩ := of_bind h
      cases h
      exact .new rfl rfl hbits hl
  | some g =>
    simp only at h
    split at h
    · cases h
    next hinputs =>
    rw [ne_eq, not_not] at hinputs
    refine ⟨by simpa using hinputs, ?_⟩
    cases style with
    | native =>
      obtain ⟨items, mid, hitems, h⟩ := of_bind h
      cases hitems
      cases h
      exact .native rfl rfl
    | lut =>
      obtain ⟨selectBits, mid, hbits, h⟩ := of_bind h
      cases htable : g.lut with
      | none =>
        rw [htable] at h
        cases h
      | some l =>
        rw [htable] at h
        obtain ⟨⟨o, l'⟩, stop, hl, h⟩ := of_bind h
        cases h
        obtain rfl := lut_kept hl
        exact .again rfl rfl htable hbits hl

/-- A request for a multiplexer that can be built is met. -/
theorem buildMux_of_built {style : MuxStyle} {r : Request} {ports : List (String × Operand)}
    {count : Nat} {words : List Expr} (hcount : r.positive "num_inputs" = .ok count)
    (two : 2 ≤ count) (wired : r.wire ports (muxPorts count) = .ok words)
    (inputs : ∀ g ∈ given, g.inputs = (count : Int))
    (built : MuxBuilt p style count words given next m out last) :
    p.buildMux style r ports given next = .ok ((out, m), last) := by
  rw [buildMux, bind_of_ok (lift_of_ok hcount)]
  simp only [if_neg (show ¬ count < 2 by omega)]
  have hports : (liftM (r.wire ports (inputPorts count ++ [("S", selectWidth count)])) :
      Build Refusal (List Expr)) next = .ok (words, next) := lift_of_ok wired
  rw [bind_of_ok hports]
  cases built with
  | native is made =>
    subst is
    cases given with
    | none => exact bind_of_ok made
    | some g =>
      simp only [inputs g rfl]
      rw [if_neg (by simp)]
      exact bind_of_ok made
  | new is fresh cut placed =>
    subst is fresh
    simp only
    rw [bind_of_ok cut]
    exact bind_of_ok placed
  | @again selectBits g l out mid last is handed table cut placed =>
    subst is handed
    simp only [inputs m rfl]
    rw [if_neg (by simp), bind_of_ok cut]
    simp only [table]
    exact bind_of_ok placed

/-- The ways in which a multiplexer of two inputs is placed. -/
inductive MuxPlaced (p : Platform) (a b s : Expr) (given : Option MuxProgram) (next : Nat) :
    MuxProgram → Expr → Nat → Prop
  | native (style : p.mux = some .native) :
      MuxPlaced p a b s given next (given.getD ⟨2, none⟩) (nativeMux next a b s) (next + 2)
  | new {l : LutProgram} {out : Expr} {last : Nat} (style : p.mux = some .lut)
      (fresh : given = none) (placed : p.lut [a, b, s] none next = .ok ((out, l), last)) :
      MuxPlaced p a b s given next ⟨2, some l⟩ out last
  | again {m : MuxProgram} {l : LutProgram} {out : Expr} {last : Nat} (style : p.mux = some .lut)
      (handed : given = some m) (table : m.lut = some l)
      (placed : p.lut [a, b, s] (some l) next = .ok ((out, l), last)) :
      MuxPlaced p a b s given next m out last

theorem bits_of_shape {ε : Type} (hs : s.shape = .word 1) (next : Nat) :
    (Build.bits s : Build ε (List Expr)) next = .ok ([s], next) := by
  have hbit : (Build.bit s 0 : Build ε Expr) = pure s := by
    rw [Build.bit, if_pos ⟨width_of_shape hs, rfl⟩]
  rw [Build.bits, width_of_shape hs, List.range_one, List.mapM_cons, hbit]
  rfl

theorem wire_mux2 {ys : List Expr} :
    (Request.mux 2).wire [("I0", .expr a), ("I1", .expr b), ("S", .expr s)]
        (inputPorts 2 ++ [("S", selectWidth 2)]) = .ok ys ↔
      ys = [a, b, s] ∧ a.shape = .word 1 ∧ b.shape = .word 1 ∧ s.shape = .word 1 := by
  have h : (Request.mux 2).wire (["I0", "I1", "S"].zip ([a, b, s].map .expr))
      (["I0", "I1", "S"].zip [1, 1, 1]) = .ok ys ↔ _ :=
    Request.wire_eq_ok (by decide) rfl rfl
  have hselect : selectWidth 2 = 1 := by decide
  rw [hselect]
  refine Iff.trans h ?_
  simp

theorem positive_mux2 : (Request.mux 2).positive "num_inputs" = .ok 2 := rfl

theorem list_pair {ε : Type} (ha : a.shape = .word 1) (next : Nat) :
    (Build.list [a, b] : Build ε Expr) next = .ok (.node next .list (.list 1 2) [a, b], next + 1) := by
  rw [Build.list, List.map_cons, List.headD_cons, width_of_shape ha]
  rfl

/-- A multiplexer of two inputs is placed as one between its two inputs and what selects. -/
theorem muxPlaced_iff (ha : a.shape = .word 1) (hs : s.shape = .word 1) :
    MuxPlaced p a b s given next m out last ↔
      ∃ style, p.mux = some style ∧ MuxBuilt p style 2 [a, b, s] given next m out last := by
  have hbits : (Build.bits ([a, b, s].getLastD default) : Build Refusal (List Expr)) next =
      .ok ([s], next) := bits_of_shape hs next
  have hlist : (Build.list ([a, b, s].take 2) : Build Refusal Expr) next =
      .ok (.node next .list (.list 1 2) [a, b], next + 1) := list_pair ha next
  constructor
  · rintro (style | ⟨style, fresh, placed⟩ | ⟨style, handed, table, placed⟩)
    · exact ⟨.native, style, .native rfl hlist⟩
    · exact ⟨.lut, style, .new rfl fresh hbits placed⟩
    · exact ⟨.lut, style, .again rfl handed table hbits placed⟩
  · rintro ⟨style, hstyle, built⟩
    cases built with
    | native is made =>
      rw [hlist] at made
      cases made
      exact .native (hstyle.trans (congrArg some is))
    | new is fresh cut placed =>
      rw [hbits] at cut
      cases cut
      exact .new (hstyle.trans (congrArg some is)) fresh placed
    | again is handed table cut placed =>
      rw [hbits] at cut
      cases cut
      exact .again (hstyle.trans (congrArg some is)) handed table placed

/-- When a request for a multiplexer of two inputs is met, and by what. -/
theorem mux2_eq_ok : p.mux2 a b s given next = .ok ((out, m), last) ↔
    a.shape = .word 1 ∧ b.shape = .word 1 ∧ s.shape = .word 1 ∧ (∀ g ∈ given, g.inputs = 2) ∧
      MuxPlaced p a b s given next m out last := by
  rw [mux2]
  constructor
  · intro h
    cases hstyle : p.mux with
    | none =>
      rw [hstyle] at h
      cases h
    | some style =>
      rw [hstyle] at h
      obtain ⟨count, words, hcount, -, hwired, hinputs, hbuilt⟩ := of_buildMux h
      obtain rfl : 2 = count := Except.ok.inj (positive_mux2.symm.trans hcount)
      obtain ⟨rfl, ha, hb, hs⟩ := wire_mux2.mp hwired
      exact ⟨ha, hb, hs, hinputs, (muxPlaced_iff ha hs).mpr ⟨style, hstyle, hbuilt⟩⟩
  · rintro ⟨ha, hb, hs, hinputs, hplaced⟩
    obtain ⟨style, hstyle, hbuilt⟩ := (muxPlaced_iff ha hs).mp hplaced
    rw [hstyle]
    exact buildMux_of_built positive_mux2 le_rfl (wire_mux2.mpr ⟨rfl, ha, hb, hs⟩) hinputs hbuilt

/-- A multiplexer that is placed chooses between two single bits. The program of fixed hardware has
no table, unless one was handed in for nothing. -/
structure MuxSpec (p : Platform) (a b s : Expr) (given : Option MuxProgram) (next : Nat) (out : Expr)
    (m : MuxProgram) (last : Nat) : Prop where
  bits : ∀ x ∈ [a, b, s], x.shape = .word 1
  complete : ∀ l ∈ m.lut, l.Complete
  shape : out.shape = .word 1
  sketched :
    Sketched [a, b, s] ((given.map MuxProgram.holes).getD []) m.holes next last [out]
  uses : ∀ x ∈ [a, b, s], x ∈ out.preorder
  wires : (∀ g ∈ given, p.mux = some .native → g.lut = none) →
    ∀ h ∈ m.holes, .hole h ∈ out.preorder
  eval : ∀ (env : Valuation) (τ : Hole → Bool) (x y z : Bool),
    eval (.settled env τ) a = .ok (.word [x]) → eval (.settled env τ) b = .ok (.word [y]) →
      eval (.settled env τ) s = .ok (.word [z]) →
        (∀ l ∈ m.lut, l.read τ [x, y, z] = if z then y else x) →
          eval (.settled env τ) out = .ok (.word [if z then y else x])

theorem mux2_spec (hgiven : ∀ g ∈ given, ∀ l ∈ g.lut, l.Complete)
    (h : p.mux2 a b s given next = .ok ((out, m), last)) :
    MuxSpec p a b s given next out m last := by
  obtain ⟨ha, hb, hs, -, hplaced⟩ := mux2_eq_ok.mp h
  have hbits : ∀ x ∈ [a, b, s], x.shape = .word 1 := by simpa using ⟨ha, hb, hs⟩
  cases hplaced with
  | native style =>
    refine ⟨hbits, ?_, rfl, ⟨by omega, ?_, ?_⟩, ?_, fun hnone => ?_, ?_⟩
    · cases given with
      | none => simp
      | some g => exact hgiven g rfl
    · intro k hk
      cases given with
      | none => cases hk
      | some g => exact .inl hk
    · intro y hy
      rw [List.mem_singleton] at hy
      exact hy ▸ (grown_nativeMux next ha hb hs).mono (fun _ hx => hx) (fun _ => False.elim)
        (fun _ => False.elim)
    · simp [nativeMux, mem_preorder_self]
    · intro k hk
      cases given with
      | none => cases hk
      | some g =>
        have hk : k ∈ g.holes := hk
        rw [MuxProgram.holes, hnone g rfl style] at hk
        cases hk
    · exact fun env τ x y z hx hy hz _ => eval_nativeMux next hx hy hz
  | @new l _ _ style fresh placed =>
    have hspec := lut_spec (by simp) placed
    subst fresh
    refine ⟨hbits, by simpa using hspec.complete, hspec.output.shape, hspec.sketched,
      hspec.output.uses, fun _ => hspec.output.wires, fun env τ x y z hx hy hz hread => ?_⟩
    rw [hspec.output.eval env τ [x, y, z] (.cons hx (.cons hy (.cons hz .nil))), hread l rfl]
  | @again _ l _ _ style handed table placed =>
    subst handed
    have hl := hgiven m rfl l table
    have hspec := lut_spec (by simpa using hl) placed
    have hholes := MuxProgram.holes_of_some table
    refine ⟨hbits, by simpa [table] using hl, hspec.output.shape, ?_, hspec.output.uses, fun _ => ?_,
      fun env τ x y z hx hy hz hread => ?_⟩
    · simpa [hholes] using hspec.sketched
    · rw [hholes]
      exact hspec.output.wires
    · rw [hspec.output.eval env τ [x, y, z] (.cons hx (.cons hy (.cons hz .nil))), hread l table]

/-- A program that is handed in is the one that is used. -/
theorem mux2_kept {g : MuxProgram} (h : p.mux2 a b s (some g) next = .ok ((out, m), last)) :
    m = g := by
  obtain ⟨-, -, -, -, hplaced⟩ := mux2_eq_ok.mp h
  cases hplaced with
  | native style => rfl
  | new style fresh placed => cases fresh
  | again style handed table placed => exact (Option.some.inj handed).symm

/-- The program of fixed hardware has no table, unless one was handed in. -/
theorem mux2_native (hgiven : ∀ g ∈ given, p.mux = some .native → g.lut = none)
    (h : p.mux2 a b s given next = .ok ((out, m), last)) (style : p.mux = some .native) :
    m.lut = none := by
  obtain ⟨-, -, -, -, hplaced⟩ := mux2_eq_ok.mp h
  cases hplaced with
  | native style =>
    cases given with
    | none => rfl
    | some g => exact hgiven g rfl style
  | new other fresh placed => simp [other] at style
  | again other handed table placed => simp [other] at style

/-- A program is one for a multiplexer of two inputs, as the platform builds it. -/
structure MuxSized (p : Platform) (m : MuxProgram) : Prop where
  inputs : m.inputs = 2
  table : p.mux = some .lut → ∃ l, m.lut = some l ∧ l.inputs = 3

theorem mux2_sized (h : p.mux2 a b s given next = .ok ((out, m), last)) : MuxSized p m := by
  obtain ⟨-, -, -, hinputs, hplaced⟩ := mux2_eq_ok.mp h
  cases hplaced with
  | native style =>
    refine ⟨?_, fun other => by simp [style] at other⟩
    cases given with
    | none => rfl
    | some g => exact hinputs g rfl
  | new style fresh placed => exact ⟨rfl, fun _ => ⟨_, rfl, lut_sized placed⟩⟩
  | @again _ l _ _ style handed table placed =>
    exact ⟨hinputs m handed, fun _ => ⟨l, table, lut_sized placed⟩⟩

/-- Single bits can be chosen between with a new program, or with any of the right size. -/
theorem mux2_reusable {a' b' s' : Expr} (h : p.mux2 a b s given next = .ok ((out, m), last))
    (bits : ∀ x ∈ [a', b', s'], x.shape = .word 1) (given' : Option MuxProgram)
    (sized : ∀ g ∈ given', MuxSized p g) (next' : Nat) :
    ∃ out' m' last', p.mux2 a' b' s' given' next' = .ok ((out', m'), last') ∧
      ∀ g ∈ given', m' = g := by
  obtain ⟨-, -, -, -, hplaced⟩ := mux2_eq_ok.mp h
  obtain ⟨ha, hb, hs⟩ : a'.shape = .word 1 ∧ b'.shape = .word 1 ∧ s'.shape = .word 1 := by
    simpa using bits
  have hinputs : ∀ g ∈ given', g.inputs = 2 := fun g hg => (sized g hg).inputs
  have hlut : p.mux = some .lut → ∀ {o l t u} {g : Option LutProgram},
      p.lut [a, b, s] g t = .ok ((o, l), u) → ∃ out' m' last',
        p.mux2 a' b' s' given' next' = .ok ((out', m'), last') ∧ ∀ g ∈ given', m' = g := by
    intro style o l t u g placed
    cases given' with
    | none =>
      obtain ⟨out', l', last', hout, -⟩ := lut_reusable placed [a', b', s'] rfl bits none (by simp) next'
      exact ⟨out', ⟨2, some l'⟩, last', mux2_eq_ok.mpr ⟨ha, hb, hs, by simp, .new style rfl hout⟩,
        by simp⟩
    | some m' =>
      obtain ⟨l₀, htable, hl₀⟩ := (sized m' rfl).table style
      obtain ⟨out', l', last', hout, hkept⟩ :=
        lut_reusable placed [a', b', s'] rfl bits (some l₀) (by simpa using hl₀) next'
      obtain rfl := hkept l₀ rfl
      exact ⟨out', m', last', mux2_eq_ok.mpr ⟨ha, hb, hs, hinputs, .again style rfl htable hout⟩,
        by simp⟩
  cases hplaced with
  | native style =>
    refine ⟨_, _, _, mux2_eq_ok.mpr ⟨ha, hb, hs, hinputs, .native style⟩, fun g hg => ?_⟩
    rw [Option.mem_def.mp hg, Option.getD_some]
  | new style fresh placed => exact hlut style placed
  | again style handed table placed => exact hlut style placed

end Platform
end CircuitSketch
