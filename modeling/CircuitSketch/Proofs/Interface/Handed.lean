import CircuitSketch.Proofs.Interface.Defects

/-!
# Programs that are handed on

A program that was made for a request can be handed to another platform with the same request. Where
it is taken, what is placed has the holes of the program and no others, so that nothing that was
programmed is lost. A multiplexer as fixed hardware is the exception: it passes a program on as it
is, and loses the table that a multiplexer of another style has.
-/
namespace CircuitSketch

open CircuitSketch.Expr Build

/-- No word at a port has a hole. -/
def Request.HoleFree (ports : List (String × Operand)) : Prop :=
  ∀ name e, (name, .expr e) ∈ ports → e.holes = []

theorem Request.HoleFree.of_wire {r : Request} {ports : List (String × Operand)}
    {expected : List (String × Nat)} {words : List Expr} (free : HoleFree ports)
    (h : r.wire ports expected = .ok words) : ∀ x ∈ words, x.holes = [] := by
  intro x hx
  obtain ⟨e, -, hlookup, -⟩ := exists_of_forall₂_right (forall₂_of_wire h) hx
  exact free e.1 x (mem_of_lookup_eq_some hlookup)

/-- What is grown without holes from words without holes has none. -/
theorem Expr.Grown.holes_eq_nil {xs : List Expr} {y : Expr} (h : GrownFrom xs y)
    (closed : ∀ x ∈ xs, x.holes = []) : y.holes = [] := by
  refine List.eq_nil_iff_forall_not_mem.mpr fun k hk => ?_
  rcases h.source_of_mem_holes hk with ⟨x, hx, hkx⟩ | hwired | hchosen
  · rw [closed x hx] at hkx
    cases hkx
  · exact hwired
  · exact hchosen

theorem Expr.holes_node_eq_nil {t : Nat} {op : Op} {s : Shape} {args : List Expr}
    (closed : ∀ a ∈ args, a.holes = []) : (node t op s args).holes = [] := by
  refine List.eq_nil_iff_forall_not_mem.mpr fun k hk => ?_
  obtain ⟨a, ha, hk⟩ := mem_holes_node.mp hk
  rw [closed a ha] at hk
  cases hk

namespace Build

/-- The errors of a request that is not met are all told as defects. -/
theorem Reports.error_or_ok {α : Type} {b : Build Refusal α} {d : Option Defect} (h : b.Reports d)
    (next : Nat) :
    (∃ e k, b next = .error e ∧ e.defect? = some k ∧ d = some k) ∨
      ∃ a last, b next = .ok (a, last) := by
  cases d with
  | none => exact .inr ((h next).1 rfl)
  | some k =>
    obtain ⟨e, he, hk⟩ := (h next).2 k rfl
    exact .inl ⟨e, k, he, hk, rfl⟩

end Build

namespace Platform

variable {p : Platform} {r : Request} {ports : List (String × Operand)} {out : Expr} {k : Hole}
  {next last : Nat}

section Lut

variable {given : Option LutProgram} {l : LutProgram} {table : List Hole} {t size : Nat}

theorem mem_holes_lutInit : k ∈ (lutInit t size table).holes ↔ k ∈ table := by
  rw [lutInit, mem_holes_node]
  constructor
  · rintro ⟨e, he, hk⟩
    rcases mem_lutEntries (List.mem_reverse.mp he) with ⟨j, hj, rfl⟩ | rfl
    · exact mem_holes_hole.mp hk ▸ hj
    · rw [zeroBit, holes_node_eq_nil (by simp)] at hk
      cases hk
  · intro hk
    exact ⟨.hole k, by simp [lutEntries, hk], mem_holes_hole.mpr rfl⟩

/-- The holes of a lookup table between words without holes are those of its program. -/
theorem mem_holes_placedLut {inputs : List Expr} (closed : ∀ x ∈ inputs, x.holes = []) :
    k ∈ (placedLut t size inputs table).holes ↔ k ∈ table := by
  rw [placedLut, mem_holes_node]
  simp only [List.mem_singleton, exists_eq_left, mem_holes_node]
  constructor
  · rintro ⟨x, hx, hk⟩
    simp only [List.mem_append, List.mem_replicate, List.mem_singleton] at hx
    rcases hx with (hx | ⟨-, rfl⟩) | rfl
    · rw [closed x hx] at hk
      cases hk
    · rw [zeroBit, holes_node_eq_nil (by simp)] at hk
      cases hk
    · exact mem_holes_lutInit.mp hk
  · intro hk
    exact ⟨lutInit t size table, by simp, mem_holes_lutInit.mpr hk⟩

theorem mem_holes_of_lut {inputs : List Expr} (closed : ∀ x ∈ inputs, x.holes = [])
    (h : p.lut inputs given next = .ok ((out, l), last)) : k ∈ out.holes ↔ k ∈ l.table := by
  obtain ⟨_, _, -, -, -, -, rfl, -⟩ := lut_eq_ok.mp h
  exact mem_holes_placedLut closed

theorem mem_holes_of_buildLut (free : Request.HoleFree ports)
    (h : p.buildLut r ports given next = .ok ((out, l), last)) : k ∈ out.holes ↔ k ∈ l.table := by
  obtain ⟨_, _, _, _, -, -, hwired, -, rfl, -⟩ := of_buildLut h
  exact mem_holes_placedLut (free.of_wire hwired)

theorem buildLut_kept {g : LutProgram}
    (h : p.buildLut r ports (some g) next = .ok ((out, l), last)) : l = g := by
  obtain ⟨_, _, _, _, -, -, -, hissued, -⟩ := of_buildLut h
  cases hissued
  rfl

theorem LutIssued.table_ne_nil {count : Nat} (h : LutIssued count next none l t) :
    l.table ≠ [] := by
  have hpos := twoPow_pos l.inputs.toNat
  rw [← (h.complete (by simp)).length] at hpos
  exact List.ne_nil_of_length_pos hpos

end Lut

section Mux

variable {style : MuxStyle} {given : Option MuxProgram} {m : MuxProgram}

theorem buildMux_kept {g : MuxProgram}
    (h : p.buildMux style r ports (some g) next = .ok ((out, m), last)) : m = g := by
  obtain ⟨_, _, -, -, -, -, hbuilt⟩ := of_buildMux h
  cases hbuilt with
  | native is made => rfl
  | new is fresh cut placed => cases fresh
  | again is handed table cut placed => exact (Option.some.inj handed).symm

/-- A new program has holes just if the multiplexer is built from a lookup table. -/
theorem holes_eq_nil_of_buildMux (h : p.buildMux style r ports none next = .ok ((out, m), last)) :
    m.holes = [] ↔ style ≠ .lut := by
  obtain ⟨_, _, -, -, -, -, hbuilt⟩ := of_buildMux h
  cases hbuilt with
  | native is made => exact iff_of_true rfl (by simp [is])
  | new is fresh cut placed =>
    obtain ⟨_, _, -, -, -, hissued, -, -⟩ := lut_eq_ok.mp placed
    exact iff_of_false hissued.table_ne_nil (not_not_intro is)
  | again is handed table cut placed => cases handed

/-- The inputs of a multiplexer and the bits that select one have no holes if its words have none.
-/
theorem closed_selectBits {words selectBits : List Expr} {count mid : Nat}
    (closed : ∀ x ∈ words, x.holes = []) (hwired : r.wire ports (muxPorts count) = .ok words)
    (cut : (Build.bits (words.getLastD default) : Build Refusal (List Expr)) next =
      .ok (selectBits, mid)) : ∀ x ∈ words.take count ++ selectBits, x.holes = [] := by
  obtain ⟨-, -, hmem, hselect⟩ := of_wire_mux hwired
  intro x hx
  rcases List.mem_append.mp hx with hx | hx
  · exact closed x (List.mem_of_mem_take hx)
  · obtain ⟨i, -, hcut⟩ := exists_of_forall₂_right (of_bits hselect cut).2 hx
    exact hcut.grown.holes_eq_nil (by simpa using closed _ hmem)

/-- The holes of a multiplexer that is built from a lookup table are those of its program. Fixed
hardware has none. -/
theorem mem_holes_of_buildMux (free : Request.HoleFree ports)
    (h : p.buildMux style r ports given next = .ok ((out, m), last)) :
    k ∈ out.holes ↔ style = .lut ∧ k ∈ m.holes := by
  obtain ⟨count, words, -, -, hwired, -, hbuilt⟩ := of_buildMux h
  have closed := free.of_wire hwired
  cases hbuilt with
  | @native items is made =>
    obtain ⟨-, -, hmem, -⟩ := of_wire_mux hwired
    have hitems : items.holes = [] := by
      cases made
      exact holes_node_eq_nil fun x hx => closed x (List.mem_of_mem_take hx)
    have hargs : ∀ a ∈ [items, words.getLastD default], a.holes = [] :=
      List.forall_mem_cons.mpr ⟨hitems, List.forall_mem_singleton.mpr (closed _ hmem)⟩
    rw [holes_node_eq_nil hargs]
    simp [is]
  | new is fresh cut placed =>
    rw [mem_holes_of_lut (closed_selectBits closed hwired cut) placed]
    exact (and_iff_right is).symm
  | again is handed table cut placed =>
    rw [mem_holes_of_lut (closed_selectBits closed hwired cut) placed,
      MuxProgram.holes_of_some table]
    exact (and_iff_right is).symm

end Mux

section Carry

variable {unit : CarryUnit} {sum co : Expr} {given : Option CarryProgram} {c : CarryProgram}

theorem buildCarry_kept {g : CarryProgram}
    (h : buildCarry unit r ports (some g) next = .ok ((sum, co, c), last)) : c = g := by
  obtain ⟨w, _, _, _, _, _, -, -, hfits, -, rfl, -⟩ := of_buildCarry h
  exact congrArg CarryProgram.mk (hfits g rfl).symm

/-- A carry chain has nothing to program, and no holes. -/
theorem holes_of_buildCarry (free : Request.HoleFree ports)
    (h : buildCarry unit r ports given next = .ok ((sum, co, c), last)) :
    sum.holes = [] ∧ co.holes = [] := by
  obtain ⟨w, ci, di, s, sums, mid, hw, hwired, -, -, -, hblocks, hjoin⟩ := of_buildCarry h
  have closed := free.of_wire hwired
  obtain ⟨⟨-, hci⟩, ⟨-, hdi⟩, -, hs⟩ : _ ∧ _ ∧ _ := by
    simpa using Request.forall₂_of_wire hwired
  have hpos := Request.one_le_of_positive hw
  have hgrown := (chainOutput_of_blocks hpos hci hdi hs hblocks hjoin).2.grown
  exact ⟨(hgrown sum (by simp)).holes_eq_nil closed, (hgrown co (by simp)).holes_eq_nil closed⟩

end Carry

/-- How a request is met, kind by kind. -/
inductive Met (p : Platform) (r : Request) (ports : List (String × Operand))
    (given : Option GivenProgram) (next : Nat) : List (String × Expr) → Program → Nat → Prop
  | lut {g : Option LutProgram} {out : Expr} {l : LutProgram} {last : Nat} (kind : r.kind = "LUT")
      (handed : given = g.map fun l => .program (.lut l))
      (built : p.buildLut r ports g next = .ok ((out, l), last)) :
      Met p r ports given next [("O", out)] (.lut l) last
  | mux {style : MuxStyle} {g : Option MuxProgram} {out : Expr} {m : MuxProgram} {last : Nat}
      (kind : r.kind = "MUX") (found : p.mux = some style)
      (handed : given = g.map fun m => .program (.mux m))
      (built : p.buildMux style r ports g next = .ok ((out, m), last)) :
      Met p r ports given next [("O", out)] (.mux m) last
  | carry {unit : CarryUnit} {g : Option CarryProgram} {sum co : Expr} {c : CarryProgram}
      {last : Nat} (kind : r.kind = "carry") (found : p.carry = some unit)
      (handed : given = g.map fun c => .program (.carry c))
      (built : buildCarry unit r ports g next = .ok ((sum, co, c), last)) :
      Met p r ports given next [("O", sum), ("CO", co)] (.carry c) last

variable {given : Option GivenProgram} {outs : List (String × Expr)} {d : Program}

theorem met_of_construct (h : p.construct r ports given next = .ok ((outs, d), last)) :
    p.Met r ports given next outs d last := by
  generalize hb : p.construct r ports given = b at h
  rw [construct] at hb
  split at hb
  · next kind =>
    split at hb
    · obtain ⟨⟨out, l⟩, mid, hbuilt, h⟩ := of_bind (hb ▸ h)
      cases h
      exact .lut (g := none) kind rfl hbuilt
    · obtain ⟨⟨out, l⟩, mid, hbuilt, h⟩ := of_bind (hb ▸ h)
      cases h
      exact .lut (g := some _) kind rfl hbuilt
    · obtain ⟨_, _, hfail, -⟩ := of_bind (hb ▸ h)
      cases hfail
  · next style kind found =>
    split at hb
    · obtain ⟨⟨out, m⟩, mid, hbuilt, h⟩ := of_bind (hb ▸ h)
      cases h
      exact .mux (g := none) kind found rfl hbuilt
    · obtain ⟨⟨out, m⟩, mid, hbuilt, h⟩ := of_bind (hb ▸ h)
      cases h
      exact .mux (g := some _) kind found rfl hbuilt
    · obtain ⟨_, _, hfail, -⟩ := of_bind (hb ▸ h)
      cases hfail
  · next unit kind found =>
    split at hb
    · obtain ⟨⟨sum, co, c⟩, mid, hbuilt, h⟩ := of_bind (hb ▸ h)
      cases h
      exact .carry (g := none) kind found rfl hbuilt
    · obtain ⟨⟨sum, co, c⟩, mid, hbuilt, h⟩ := of_bind (hb ▸ h)
      cases h
      exact .carry (g := some _) kind found rfl hbuilt
    · obtain ⟨_, _, hfail, -⟩ := of_bind (hb ▸ h)
      cases hfail
  · subst hb
    cases h

/-- A program that is handed in is the one that is used. -/
theorem construct_kept {g : GivenProgram}
    (h : p.construct r ports (some g) next = .ok ((outs, d), last)) : g = .program d := by
  cases met_of_construct h with
  | @lut g _ _ _ kind handed built =>
    obtain ⟨l, rfl, rfl⟩ := Option.map_eq_some_iff.mp handed.symm
    rw [buildLut_kept built]
  | @mux _ g _ _ _ kind found handed built =>
    obtain ⟨m, rfl, rfl⟩ := Option.map_eq_some_iff.mp handed.symm
    rw [buildMux_kept built]
  | @carry _ g _ _ _ _ kind found handed built =>
    obtain ⟨c, rfl, rfl⟩ := Option.map_eq_some_iff.mp handed.symm
    rw [buildCarry_kept built]

/-- Fixed hardware does not use the program of a multiplexer, everything else has the holes of its
program. -/
theorem mem_holes_of_construct (free : Request.HoleFree ports)
    (h : p.construct r ports given next = .ok ((outs, d), last)) :
    k ∈ outs.flatMap (fun o => o.2.holes) ↔
      k ∈ d.holes ∧ ¬ (r.kind = "MUX" ∧ p.mux = some .native) := by
  cases met_of_construct h with
  | lut kind handed built =>
    have hmem := mem_holes_of_buildLut (k := k) free built
    simpa [kind, Program.holes] using hmem
  | @mux style _ _ _ _ kind found handed built =>
    have hmem := mem_holes_of_buildMux (k := k) free built
    cases style <;> simpa [kind, found, Program.holes] using hmem
  | carry kind found handed built =>
    obtain ⟨hsum, hco⟩ := holes_of_buildCarry free built
    simp [hsum, hco, Program.holes]

/-- A new program of a multiplexer has holes just if it is not one of fixed hardware. -/
theorem holes_eq_nil_of_construct (kind : r.kind = "MUX")
    (h : p.construct r ports none next = .ok ((outs, d), last)) :
    d.holes = [] ↔ p.mux ≠ some .lut := by
  cases met_of_construct h with
  | lut other => simp [kind] at other
  | carry other => simp [kind] at other
  | @mux style g _ _ _ _ found handed built =>
    obtain rfl : g = none := by simpa using handed.symm
    rw [found, ne_eq, Option.some.injEq]
    exact holes_eq_nil_of_buildMux built

/-- A platform that is handed the program that another has made for the same request turns it down,
or takes it over. It turns it down for a defect of the request, if all numbers of the platform can
be counted up to. Where it takes it over, nothing of the program is lost, and nothing is added,
unless the program of a multiplexer that is built from a lookup table comes to fixed hardware. -/
theorem construct_handed {p q : Platform} {ports ports' : List (String × Operand)}
    (made : p.construct r ports none next = .ok ((outs, d), last)) (free : Request.HoleFree ports')
    (next' : Nat) :
    (∃ e k, q.construct r ports' (some (.program d)) next' = .error e ∧ e.defect? = some k ∧
        (k = .pointed → ¬ q.Plain)) ∨
      ∃ outs' last', q.construct r ports' (some (.program d)) next' = .ok ((outs', d), last') ∧
        ((∀ k, k ∈ outs'.flatMap (fun o => o.2.holes) ↔ k ∈ d.holes) ↔
          ¬ (r.kind = "MUX" ∧ p.mux = some .lut ∧ q.mux = some .native)) := by
  have htold := reports_construct q r ports' (some (.program d))
  refine (htold.error_or_ok next').imp ?_ ?_
  · rintro ⟨e, k, he, hk, hdefect⟩
    exact ⟨e, k, he, hk, fun hpointed plain => plain.toldDefect_ne (hpointed ▸ hdefect)⟩
  rintro ⟨⟨outs', d'⟩, last', h⟩
  obtain rfl : d = d' := by simpa using construct_kept h
  refine ⟨outs', last', h, ?_⟩
  simp only [mem_holes_of_construct free h]
  by_cases hfixed : r.kind = "MUX" ∧ q.mux = some .native
  · obtain ⟨kind, hq⟩ := hfixed
    have hnew := holes_eq_nil_of_construct kind made
    simpa [kind, hq, List.eq_nil_iff_forall_not_mem] using hnew
  · refine iff_of_true (fun k => and_iff_left hfixed) ?_
    rintro ⟨kind, -, hq⟩
    exact hfixed ⟨kind, hq⟩

/-- A multiplexer of two inputs is requested in the same way by a sketch. -/
theorem construct_mux2 {a b s : Expr} (given : Option MuxProgram) :
    p.construct (.mux 2) [("I0", .expr a), ("I1", .expr b), ("S", .expr s)]
        (given.map fun m => .program (.mux m)) =
      p.mux2 a b s given >>= fun x => pure ([("O", x.1)], Program.mux x.2) := by
  rw [construct, mux2]
  cases hstyle : p.mux with
  | none => rfl
  | some style => cases given <;> rfl

section Variables

/-- The ports of a multiplexer of two inputs, wired to variables. -/
def variablePorts (t : Nat) : List (String × Operand) :=
  [("I0", .expr (input t "a" 1)), ("I1", .expr (input (t + 1) "b" 1)),
    ("S", .expr (input (t + 2) "s" 1))]

theorem holeFree_variablePorts (t : Nat) : Request.HoleFree (variablePorts t) := by
  intro name e he
  simp only [variablePorts, List.mem_cons, List.not_mem_nil, Prod.mk.injEq, Operand.expr.injEq,
    or_false] at he
  obtain ⟨-, rfl⟩ | ⟨-, rfl⟩ | ⟨-, rfl⟩ := he <;> exact holes_input

/-- A new program for a multiplexer of two inputs that is built from a lookup table. -/
def tableProgram (t : Nat) : MuxProgram :=
  ⟨2, some ⟨3, (List.range' t 8).map (⟨·, 1, none⟩)⟩⟩

theorem construct_generic_variables (next t : Nat) : ∃ outs,
    generic.construct (.mux 2) (variablePorts t) none next =
      .ok ((outs, .mux (tableProgram next)), next + 12) := by
  have hfit : generic.Fitting 3 3 := ⟨by decide, by decide⟩
  have hplaced : MuxPlaced generic (input t "a" 1) (input (t + 1) "b" 1) (input (t + 2) "s" 1) none
      next (tableProgram next) _ (next + 12) :=
    .new rfl rfl (lut_eq_ok.mpr ⟨3, next + 8, hfit, by simp, by simp [input], .new rfl, rfl, rfl⟩)
  have hmux := mux2_eq_ok.mpr ⟨rfl, rfl, rfl, by simp, hplaced⟩
  exact ⟨_, (congrFun (construct_mux2 none) next).trans (bind_of_ok hmux)⟩

/-- A multiplexer of two inputs goes from one platform that builds it from a lookup table to
another, which has larger tables only. -/
theorem construct_handed_tables : ∃ outs d last outs' last',
    generic.construct (.mux 2) (variablePorts 0) none 3 = .ok ((outs, d), last) ∧
    Request.HoleFree (variablePorts last) ∧
    latticeEcp5.construct (.mux 2) (variablePorts last) (some (.program d)) (last + 3) =
      .ok ((outs', d), last') ∧
    ∀ k, k ∈ outs'.flatMap (fun o => o.2.holes) ↔ k ∈ d.holes := by
  obtain ⟨outs, made⟩ := construct_generic_variables 3 0
  have free := holeFree_variablePorts 15
  have hfit : latticeEcp5.Fitting 3 4 := ⟨by decide, by decide⟩
  have hplaced : MuxPlaced latticeEcp5 (input 15 "a" 1) (input 16 "b" 1) (input 17 "s" 1)
      (some (tableProgram 3)) 18 (tableProgram 3) _ 22 :=
    .again rfl rfl rfl (lut_eq_ok.mpr ⟨4, 18, hfit, by simp, by simp [input], .again rfl, rfl, rfl⟩)
  have hmux := mux2_eq_ok.mpr ⟨rfl, rfl, rfl, by simp [tableProgram], hplaced⟩
  have taken := (congrFun (construct_mux2 (some (tableProgram 3))) 18).trans (bind_of_ok hmux)
  rcases construct_handed (q := latticeEcp5) made free 18 with ⟨e, k, he, -⟩ | ⟨outs', last', h, hiff⟩
  · cases he.symm.trans taken
  · exact ⟨outs, _, _, outs', last', made, free, h,
      hiff.mpr fun hfixed => absurd hfixed.2.2 (by decide)⟩

/-- A multiplexer of two inputs goes from a platform that builds it from a lookup table to one with
fixed hardware: its program comes back, and none of the eight holes is used. -/
theorem construct_drops_table : ∃ outs d last outs' last',
    generic.construct (.mux 2) (variablePorts 0) none 3 = .ok ((outs, d), last) ∧
    Request.HoleFree (variablePorts last) ∧
    xilinxUltrascale.construct (.mux 2) (variablePorts last) (some (.program d)) (last + 3) =
      .ok ((outs', d), last') ∧
    d.holes.length = 8 ∧ outs'.flatMap (fun o => o.2.holes) = [] := by
  obtain ⟨outs, made⟩ := construct_generic_variables 3 0
  have free := holeFree_variablePorts 15
  have hplaced : MuxPlaced xilinxUltrascale (input 15 "a" 1) (input 16 "b" 1) (input 17 "s" 1)
      (some (tableProgram 3)) 18 (tableProgram 3) _ 20 := .native rfl
  have hmux := mux2_eq_ok.mpr ⟨rfl, rfl, rfl, by simp [tableProgram], hplaced⟩
  have taken := (congrFun (construct_mux2 (some (tableProgram 3))) 18).trans (bind_of_ok hmux)
  refine ⟨outs, _, _, _, _, made, free, taken, rfl, List.eq_nil_iff_forall_not_mem.mpr fun k hk => ?_⟩
  exact ((mem_holes_of_construct free taken).mp hk).2 ⟨rfl, rfl⟩

end Variables

end Platform
end CircuitSketch
