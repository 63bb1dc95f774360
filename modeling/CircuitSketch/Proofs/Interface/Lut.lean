import CircuitSketch.Interface.Construct
import CircuitSketch.Proofs.Evaluation.Settled
import CircuitSketch.Proofs.Interface.Wire
import CircuitSketch.Proofs.Template.Sketched

/-!
# Placed lookup tables

A request for a lookup table is met by the smallest one that is large enough. Inputs that are left
over are tied to zero, so what counts is the part of the table that the request asked for: the
output is the entry of the program that the inputs spell.
-/
namespace CircuitSketch

namespace LutProgram

/-- A table with an entry of its own, of one bit, for all that the inputs can spell. -/
structure Complete (l : LutProgram) : Prop where
  length : l.table.length = twoPow l.inputs.toNat
  ones : ∀ h ∈ l.table, h.width = 1
  nodup : l.table.Nodup

/-- The entry of the table that inputs spell, the first one lowest. -/
def read (l : LutProgram) (τ : Hole → Bool) (bits : List Bool) : Bool :=
  (l.table.map τ).getD (Word.toNat bits) false

/-- The table has the entries of a function. -/
def Computes (l : LutProgram) (τ : Hole → Bool) (f : List Bool → Bool) : Prop :=
  ∀ bits : List Bool, (bits.length : Int) = l.inputs → l.read τ bits = f bits

/-- What the inputs of a complete table spell is an entry of its own. -/
theorem Complete.exists_entry {l : LutProgram} (h : l.Complete) {bits : List Bool}
    (sized : (bits.length : Int) = l.inputs) : ∃ k, l.table[Word.toNat bits]? = some k ∧
      ∀ τ, l.read τ bits = τ k := by
  have hlt : Word.toNat bits < l.table.length := by
    rw [h.length, show l.inputs.toNat = bits.length by omega]
    exact Word.toNat_lt bits
  refine ⟨_, List.getElem?_eq_getElem hlt, fun τ => ?_⟩
  rw [read, List.getD_eq_getElem?_getD, List.getElem?_map, List.getElem?_eq_getElem hlt,
    Option.map_some, Option.getD_some]

end LutProgram

/-- What is wired to a port of the placed primitive that an expression is an output of. -/
def Expr.driver? : Expr → String → Option Expr
  | .node _ (.output _) _ [placed], name => placed.asInstance?.bind (·.port? name)
  | _, _ => none

namespace Platform

open CircuitSketch.Expr Build

variable {p : Platform}

theorem one_le_of_mem_sizes {size : Nat} (h : size ∈ p.sizes) : 1 ≤ size ∧ size ≤ 8 := by
  obtain ⟨s, -, rfl⟩ := List.mem_map.mp h
  exact ⟨s.one_le, s.le_eight⟩

theorem of_fittingLut? {inputs size : Nat} (h : p.fittingLut? inputs = some size) :
    inputs ≤ size ∧ 1 ≤ size ∧ size ≤ 8 := by
  have hmem := List.mem_filter.mp (List.min?_mem h)
  exact ⟨by simpa using hmem.2, one_le_of_mem_sizes hmem.1⟩

theorem foldl_max_lt {n a : Nat} {xs : List Nat} (ha : a < n) (hxs : ∀ x ∈ xs, x < n) :
    xs.foldl max a < n := by
  induction xs generalizing a with
  | nil => exact ha
  | cons x xs ih => exact ih (max_lt ha (hxs x (by simp))) fun y hy => hxs y (by simp [hy])

theorem exists_fittingLut {n : Nat} (pos : 1 ≤ n) (le : n ≤ p.maxLut) :
    ∃ size, p.fittingLut? n = some size := by
  rw [← Option.isSome_iff_exists, fittingLut?, List.isSome_min?_iff]
  intro hnone
  rw [List.filter_eq_nil_iff] at hnone
  have hlt : p.maxLut < n := foldl_max_lt pos fun x hx => by simpa using hnone x hx
  omega

theorem le_foldl_max {x a : Nat} {xs : List Nat} (h : x ≤ a ∨ x ∈ xs) : x ≤ xs.foldl max a := by
  induction xs generalizing a with
  | nil => exact h.resolve_right List.not_mem_nil
  | cons y ys ih =>
    refine ih ?_
    rcases h with h | h
    · exact .inl (h.trans (le_max_left a y))
    rcases List.mem_cons.mp h with rfl | h
    · exact .inl (le_max_right a x)
    · exact .inr h

/-- As many inputs as the largest lookup table has are read with that one. -/
theorem fittingLut?_maxLut (pos : 1 ≤ p.maxLut) : p.fittingLut? p.maxLut = some p.maxLut := by
  obtain ⟨size, hsize⟩ := exists_fittingLut pos le_rfl
  have hmem : size ∈ p.sizes := (List.mem_filter.mp (List.min?_mem hsize)).1
  have hle : size ≤ p.maxLut := le_foldl_max (.inr hmem)
  rw [hsize, (of_fittingLut? hsize).1.antisymm hle]

/-- The smallest lookup table with enough inputs has a size that was written with a point. -/
def pointedTable (p : Platform) (inputs : Nat) : Bool :=
  (p.fittingLut? inputs).any fun size => (p.written size).pointed

theorem pointedTable_eq {inputs size : Nat} (h : p.fittingLut? inputs = some size) :
    p.pointedTable inputs = (p.written size).pointed := by
  rw [pointedTable, h, Option.any_some]

/-- Every number of a platform was written without a point. -/
structure Plain (p : Platform) : Prop where
  sizes : ∀ s ∈ p.lutSizes, s.count.pointed = false
  chunk : ∀ unit ∈ p.carry, unit.chunk.pointed = false

theorem Plain.written (plain : p.Plain) (size : Nat) : (p.written size).pointed = false := by
  rw [Platform.written, List.any_eq_false]
  intro s hs
  simp [plain.sizes s hs]

theorem Plain.pointedTable (plain : p.Plain) (inputs : Nat) : p.pointedTable inputs = false := by
  rw [Platform.pointedTable]
  cases p.fittingLut? inputs with
  | none => rfl
  | some size => exact plain.written size

/-- The numbers of the known platforms have no point. -/
theorem plain_of_mem_known (h : p ∈ known) : p.Plain := by
  have hsizes : ∀ q ∈ known, ∀ s ∈ q.lutSizes, s.count.pointed = false := by decide
  have hchunk : ∀ q ∈ known, ∀ unit ∈ q.carry, unit.chunk.pointed = false := by decide
  exact ⟨hsizes p h, hchunk p h⟩

/-- The lookup table that as many inputs are read with: the smallest one with enough of them. All of
its own inputs are wired, so its size is counted up to. -/
structure Fitting (p : Platform) (inputs size : Nat) : Prop where
  smallest : p.fittingLut? inputs = some size
  plain : (p.written size).pointed = false

theorem Fitting.bounds {inputs size : Nat} (h : p.Fitting inputs size) :
    inputs ≤ size ∧ 1 ≤ size ∧ size ≤ 8 :=
  of_fittingLut? h.smallest

theorem exists_fitting {n : Nat} (pos : 1 ≤ n) (le : n ≤ p.maxLut)
    (whole : p.pointedTable n = false) : ∃ size, p.Fitting n size := by
  obtain ⟨size, hsize⟩ := exists_fittingLut pos le
  exact ⟨size, hsize, (pointedTable_eq hsize).symm.trans whole⟩

/-- The entries of a lookup table with `size` inputs. -/
def lutEntries (t size : Nat) (table : List Hole) : List Expr :=
  table.map .hole ++ List.replicate (twoPow size - table.length) (zeroBit t)

/-- The word on the table of a lookup table. -/
def lutInit (t size : Nat) (table : List Hole) : Expr :=
  .node (t + 1) .concat (.word ((lutEntries t size table).map Expr.width).sum)
    (lutEntries t size table).reverse

/-- The output of a lookup table with `size` inputs, placed from tag `t` on. -/
def placedLut (t size : Nat) (inputs : List Expr) (table : List Hole) : Expr :=
  .node (t + 3) (.output "O") (.word 1)
    [.node (t + 2) (.lut size) (.group [("O", 1)])
      (inputs ++ List.replicate (size - inputs.length) (zeroBit t) ++ [lutInit t size table])]

theorem two_le_twoPow {size : Nat} (pos : 1 ≤ size) : 2 ≤ twoPow size := by
  obtain ⟨k, rfl⟩ : ∃ k, size = k + 1 := ⟨size - 1, by omega⟩
  have := twoPow_pos k
  rw [twoPow_succ]
  omega

theorem mem_lutEntries {t size : Nat} {table : List Hole} {e : Expr}
    (h : e ∈ lutEntries t size table) : (∃ k ∈ table, e = .hole k) ∨ e = zeroBit t := by
  rcases List.mem_append.mp h with h | h
  · obtain ⟨k, hk, rfl⟩ := List.mem_map.mp h
    exact .inl ⟨k, hk, rfl⟩
  · exact .inr (List.mem_replicate.mp h).2

/-- The table of a lookup table is joined from at least two entries. -/
theorem join_lutInit {t size : Nat} {table : List Hole} :
    Join (lutEntries t size table) (lutInit t size table) := by
  refine join_concat (t + 1) (fun e he => ?_) ?_
  · rcases mem_lutEntries he with ⟨k, -, rfl⟩ | rfl <;> rfl
  · have := twoPow_pos size
    rw [← List.length_pos_iff]
    simp only [lutEntries, List.length_append, List.length_map, List.length_replicate]
    omega

theorem placeLut_eq {size : Nat} {inputs : List Expr} (table : List Hole) (t : Nat)
    (pos : 1 ≤ size) (le : inputs.length ≤ size) :
    placeLut size inputs table t = .ok (placedLut t size inputs table, t + 4) := by
  have hentries : table.map .hole ++
      List.replicate (twoPow size - (table.map Expr.hole).length) (zeroBit t) =
        lutEntries t size table := by rw [List.length_map, lutEntries]
  have hinit : (concatBits (lutEntries t size table) : Build Refusal Expr) (t + 1) =
      .ok (lutInit t size table, t + 2) := by
    have hlen : 2 ≤ (lutEntries t size table).length := by
      have := two_le_twoPow pos
      simp only [lutEntries, List.length_append, List.length_map, List.length_replicate]
      omega
    rw [concatBits]
    · rw [concat, Checked.totalWidth_eq_sum, List.map_reverse, List.sum_reverse, lutInit]
      rfl
    · intro e he
      rw [he] at hlen
      simp at hlen
  have hports : ∀ wired : List Expr, wired.length = size → ∀ init : Expr,
      (((wired.zipIdx.map fun w => (s!"I{w.2}", w.1)) ++ [("INIT", init)]).map (·.1) =
          Primitive.lutPorts size) ∧
        ((wired.zipIdx.map fun w => (s!"I{w.2}", w.1)) ++ [("INIT", init)]).map (·.2) =
          wired ++ [init] := by
    intro wired hwired init
    constructor
    · rw [List.map_append, Primitive.lutPorts]
      congr 1
      refine List.ext_getElem (by simp [hwired]) fun i h1 h2 => ?_
      simp [Primitive.inputName]
    · rw [List.map_append]
      congr 1
      refine List.ext_getElem (by simp) fun i h1 h2 => ?_
      simp
  obtain ⟨hnames, hwords⟩ := hports
    (inputs ++ List.replicate (size - inputs.length) (zeroBit t)) (by simp; omega)
    (lutInit t size table)
  rw [placeLut, bind_of_ok const_zero]
  simp only
  rw [hentries, bind_of_ok hinit, primitive, hnames, hwords]
  rfl

section Placed

variable {t size : Nat} {inputs : List Expr} {table : List Hole}

theorem shape_lutInit (ones : ∀ h ∈ table, h.width = 1) (full : table.length ≤ twoPow size) :
    (lutInit t size table).shape = .word (twoPow size) := by
  have htable : (table.map Expr.hole).map Expr.width = List.replicate table.length 1 := by
    rw [List.map_map, List.eq_replicate_iff]
    refine ⟨by simp, fun w hw => ?_⟩
    obtain ⟨h, hh, rfl⟩ := List.mem_map.mp hw
    exact width_of_shape (congrArg Shape.word (ones h hh))
  have hzero : (zeroBit t).width = 1 := rfl
  rw [lutInit, shape_node, lutEntries]
  simp only [List.map_append, htable, List.map_replicate, hzero, List.sum_append,
    List.sum_replicate_nat, Shape.word.injEq]
  omega

theorem grown_placedLut (pos : 1 ≤ size) (small : size ≤ 8) (le : inputs.length ≤ size)
    (bits : ∀ x ∈ inputs, x.shape = .word 1) (ones : ∀ h ∈ table, h.width = 1)
    (full : table.length ≤ twoPow size) :
    (placedLut t size inputs table).Grown (· ∈ inputs) (· ∈ table) (fun _ => False) := by
  have hzero : (zeroBit t).Grown (· ∈ inputs) (· ∈ table) (fun _ => False) :=
    (grown_zeroBit t).mono (by simp) (fun _ => False.elim) (fun _ => False.elim)
  have hinit : (lutInit t size table).Grown (· ∈ inputs) (· ∈ table) (fun _ => False) := by
    refine join_lutInit.grown.trans (fun e he => ?_) (fun _ => False.elim) (fun _ => False.elim)
    rcases mem_lutEntries he with ⟨k, hk, rfl⟩ | rfl
    · exact .wire hk (ones k hk)
    · exact hzero
  have hshapes : (inputs ++ List.replicate (size - inputs.length) (zeroBit t) ++
      [lutInit t size table]).map Expr.shape =
        (List.replicate size 1 ++ [twoPow size]).map .word := by
    have hinputs : inputs.map Expr.shape = List.replicate inputs.length (.word 1) := by
      rw [List.eq_replicate_iff]
      refine ⟨by simp, fun s hs => ?_⟩
      obtain ⟨x, hx, rfl⟩ := List.mem_map.mp hs
      exact bits x hx
    have hsize : size = inputs.length + (size - inputs.length) := by omega
    simp only [List.map_append, hinputs, List.map_replicate, List.map_singleton,
      shape_lutInit ones full]
    rw [show (zeroBit t).shape = .word 1 from rfl, ← List.replicate_add, ← hsize]
  refine .operation (.output rfl) (Op.total_output rfl) fun a ha => ?_
  rw [List.mem_singleton] at ha
  subst ha
  refine .operation ?_ ?_ fun a ha => ?_
  · rw [hshapes]
    exact .primitive (by simp [Primitive.lutPorts]) (by simp)
  · rw [hshapes]
    exact Op.total_lut pos small
  · rcases List.mem_append.mp ha with ha | ha
    · rcases List.mem_append.mp ha with ha | ha
      · exact .operand ha
      · obtain ⟨-, rfl⟩ := List.mem_replicate.mp ha
        exact hzero
    · rw [List.mem_singleton] at ha
      exact ha ▸ hinit

theorem mem_placedLut_of_mem {x : Expr} (h : x ∈ inputs) :
    x ∈ (placedLut t size inputs table).preorder := by
  refine mem_preorder_node.mpr (.inr ⟨_, List.mem_singleton_self _, ?_⟩)
  exact mem_preorder_node.mpr (.inr ⟨x, by simp [h], x.mem_preorder_self⟩)

theorem hole_mem_placedLut {h : Hole} (hh : h ∈ table) :
    .hole h ∈ (placedLut t size inputs table).preorder := by
  refine mem_preorder_node.mpr (.inr ⟨_, List.mem_singleton_self _, ?_⟩)
  refine mem_preorder_node.mpr (.inr ⟨lutInit t size table, by simp, ?_⟩)
  exact join_lutInit.uses _ (by simp [lutEntries, hh])

/-- The inputs of a lookup table are wired in order, and then zeros. -/
theorem driver?_placedLut (le : inputs.length ≤ size) (i : Nat) :
    (placedLut t size inputs table).driver? (Primitive.inputName i) =
      (inputs ++ List.replicate (size - inputs.length) (zeroBit t))[i]? := by
  have hlen : (inputs ++ List.replicate (size - inputs.length) (zeroBit t)).length = size := by
    rw [List.length_append, List.length_replicate]
    omega
  have hdriver : (placedLut t size inputs table).driver? (Primitive.inputName i) =
      ((Primitive.lutPorts size).zip (inputs ++ List.replicate (size - inputs.length) (zeroBit t) ++
        [lutInit t size table])).lookup (Primitive.inputName i) := rfl
  rw [hdriver]
  generalize inputs ++ List.replicate (size - inputs.length) (zeroBit t) = words at hlen ⊢
  have hnames : ((Primitive.lutPorts size).zip (words ++ [lutInit t size table])).map (·.1) =
      Primitive.lutPorts size := List.map_fst_zip (by simp [Primitive.lutPorts, hlen])
  by_cases hi : i < size
  · have hword : words[i]? = some words[i] := List.getElem?_eq_getElem (hlen.symm ▸ hi)
    have hmem : (Primitive.inputName i, words[i]) ∈
        (Primitive.lutPorts size).zip (words ++ [lutInit t size table]) := by
      refine List.mem_iff_getElem?.mpr ⟨i, List.getElem?_zip_eq_some.mpr ⟨?_, ?_⟩⟩
      · rw [Primitive.lutPorts, List.getElem?_append_left (by simpa using hi)]
        simp [hi]
      · rw [List.getElem?_append_left (hlen.symm ▸ hi), hword]
    rw [hword]
    exact lookup_of_mem (hnames.symm ▸ Primitive.nodup_lutPorts size) hmem
  · rw [List.getElem?_eq_none (by omega), lookup_eq_none_iff, hnames, Primitive.lutPorts]
    simp only [List.mem_append, List.mem_map, List.mem_range, List.mem_singleton, not_or, not_exists,
      not_and]
    refine ⟨fun j hj hname => ?_, Primitive.inputName_ne_init i⟩
    exact hi (Primitive.inputName_injective hname ▸ hj)

/-- The inputs that are left over are zero, so they spell the same entry. -/
theorem getD_append_zeros (entries bits : List Bool) (m n : Nat) :
    (entries ++ List.replicate m false).getD (Word.toNat (bits ++ List.replicate n false)) false =
      entries.getD (Word.toNat bits) false := by
  rw [Word.toNat_append, Word.toNat_replicate_false, Nat.mul_zero, Nat.add_zero]
  simp only [List.getD_eq_getElem?_getD, List.getElem?_append]
  by_cases h : Word.toNat bits < entries.length
  · simp [h]
  · simp only [h, if_false, List.getElem?_replicate]
    rw [List.getElem?_eq_none (by omega)]
    split <;> rfl

theorem eval_placedLut {c : Context Bool} {τ : Hole → Bool} {bits : List Bool} (pos : 1 ≤ size)
    (small : size ≤ 8) (le : inputs.length ≤ size) (full : table.length ≤ twoPow size)
    (hc : c.Settles τ table)
    (hbits : List.Forall₂ (fun x b => eval c x = .ok (.word [b])) inputs bits) :
    eval c (placedLut t size inputs table) =
      .ok (.word [(table.map τ).getD (Word.toNat bits) false]) := by
  have hlen := hbits.length_eq
  have hzero : eval c (zeroBit t) = .ok (.word [false]) := eval_zeroBit _ t
  have hinit : eval c (lutInit t size table) =
      .ok (.word (table.map τ ++ List.replicate (twoPow size - table.length) false)) := by
    have hentries : List.Forall₂ (fun x b => eval c x = .ok (.word b))
        (lutEntries t size table)
        (table.map (fun h => [τ h]) ++ List.replicate (twoPow size - table.length) [false]) := by
      refine List.rel_append ?_ (List.forall₂_iff_get.mpr ⟨by simp, fun i h1 h2 => ?_⟩)
      · rw [List.forall₂_map_left_iff, List.forall₂_map_right_iff, List.forall₂_same]
        exact fun h hh => hc.eval_hole hh
      · simpa using hzero
    refine (join_lutInit.eval _ _ hentries).trans ?_
    rw [List.flatten_append, ← List.flatMap_def, ← List.map_eq_flatMap,
      List.flatten_replicate_singleton]
  have hargs : List.Forall₂ (fun a v => eval c a = .ok v)
      (inputs ++ List.replicate (size - inputs.length) (zeroBit t) ++ [lutInit t size table])
      (((bits ++ List.replicate (size - bits.length) false).map (fun b => [b]) ++
        [table.map τ ++ List.replicate (twoPow size - table.length) false]).map .word) := by
    rw [List.map_append, List.map_append, List.map_append, hlen]
    refine List.rel_append (List.rel_append ?_ ?_) (.cons hinit .nil)
    · rwa [List.forall₂_map_right_iff, List.forall₂_map_right_iff]
    · refine List.forall₂_iff_get.mpr ⟨by simp, fun i h1 h2 => ?_⟩
      simpa using hzero
  have hsize : (bits ++ List.replicate (size - bits.length) false).length = size := by
    rw [List.length_append, List.length_replicate]
    omega
  have hfull : (table.map τ ++ List.replicate (twoPow size - table.length) false).length =
      twoPow (bits ++ List.replicate (size - bits.length) false).length := by
    rw [hsize, List.length_append, List.length_map, List.length_replicate]
    omega
  have hlut := Op.eval_lut hc.modules (by omega) (by omega) hfull
  rw [hsize] at hlut
  have hplaced : eval c (.node (t + 2) (.lut size) (.group [("O", 1)])
      (inputs ++ List.replicate (size - inputs.length) (zeroBit t) ++ [lutInit t size table])) = _ :=
    eval_node_of_args hargs
  rw [hlut, Primitive.foldl_halve hfull, getD_append_zeros] at hplaced
  rw [placedLut, eval_node_of_args (.cons hplaced .nil)]
  rfl

end Placed

/-- Where the program of a lookup table comes from: a new table, or the one handed in. -/
inductive LutIssued (count next : Nat) : Option LutProgram → LutProgram → Nat → Prop
  | new {l : LutProgram} {t : Nat}
      (made : (newLutProgram count : Build Refusal LutProgram) next = .ok (l, t)) :
      LutIssued count next none l t
  | again {l : LutProgram} (inputs : l.inputs = count) : LutIssued count next (some l) l next

theorem positive_lut {count n : Nat} :
    (Request.lut count).positive "num_inputs" = .ok n ↔ n = count ∧ 1 ≤ count :=
  Request.positive_count rfl

theorem of_fittingLut {r : Request} {inputs size : Nat} (h : p.fittingLut r inputs = .ok size) :
    p.fittingLut? inputs = some size := by
  unfold fittingLut at h
  split at h
  · next found hfound =>
    cases h
    exact hfound
  · cases h

/-- The lookup table that a request is met with. -/
theorem of_buildLut {r : Request} {ports : List (String × Operand)} {given : Option LutProgram}
    {next last : Nat} {out : Expr} {l : LutProgram}
    (h : p.buildLut r ports given next = .ok ((out, l), last)) :
    ∃ count size words t, r.positive "num_inputs" = .ok count ∧ p.Fitting count size ∧
      r.wire ports (inputPorts count) = .ok words ∧ LutIssued count next given l t ∧
        out = placedLut t size words l.table ∧ last = t + 4 := by
  rw [buildLut] at h
  obtain ⟨count, _, hrequest, h⟩ := of_bind h
  obtain ⟨hcount, rfl⟩ := of_lift hrequest
  obtain ⟨size, _, hfitting, h⟩ := of_bind h
  obtain ⟨hsize, rfl⟩ := of_lift hfitting
  have hfit := of_fittingLut hsize
  obtain ⟨words, _, hports, h⟩ := of_bind h
  obtain ⟨hwired, rfl⟩ := of_lift hports
  have hlen : words.length = count := by
    rw [← (Request.forall₂_of_wire hwired).length_eq, inputPorts, List.length_map,
      List.length_range]
  obtain ⟨hle, hone, -⟩ := of_fittingLut? hfit
  rw [← hlen] at hle
  have htail : ∀ {program : LutProgram} {t : Nat},
      ((liftM (p.written size).checkPlain : Build Refusal Unit) >>= fun _ =>
        placeLut size words program.table >>= fun out =>
          (pure (out, program) : Build Refusal (Expr × LutProgram))) t = .ok ((out, l), last) →
            (p.written size).pointed = false ∧ l = program ∧
              out = placedLut t size words program.table ∧ last = t + 4 := by
    intro program t h
    obtain ⟨hplain, h⟩ := Count.of_checkPlain h
    obtain ⟨placed, _, hplaced, h⟩ := of_bind h
    rw [placeLut_eq program.table t hone hle] at hplaced
    cases hplaced
    cases h
    exact ⟨hplain, rfl, rfl, rfl⟩
  cases given with
  | none =>
    obtain ⟨program, t, hprogram, h⟩ := of_bind h
    obtain ⟨hplain, rfl, hout, hlast⟩ := htail h
    exact ⟨count, size, words, t, hcount, ⟨hfit, hplain⟩, hwired, .new hprogram, hout, hlast⟩
  | some g =>
    simp only at h
    split at h
    · next hinputs =>
      obtain ⟨hplain, rfl, hout, hlast⟩ := htail h
      exact ⟨count, size, words, next, hcount, ⟨hfit, hplain⟩, hwired, .again hinputs, hout, hlast⟩
    · cases h

/-- When a request for a lookup table between words is met, and by what. -/
theorem lut_eq_ok {inputs : List Expr} {given : Option LutProgram} {next last : Nat} {out : Expr}
    {l : LutProgram} : p.lut inputs given next = .ok ((out, l), last) ↔
      ∃ size t, p.Fitting inputs.length size ∧ 1 ≤ inputs.length ∧
        (∀ x ∈ inputs, x.shape = .word 1) ∧ LutIssued inputs.length next given l t ∧
          out = placedLut t size inputs l.table ∧ last = t + 4 := by
  constructor
  · intro h
    obtain ⟨count, size, words, t, hcount, hfit, hwired, hissued, hout, hlast⟩ := of_buildLut h
    obtain ⟨rfl, hpos⟩ := positive_lut.mp hcount
    obtain ⟨rfl, hbits⟩ := Request.wire_numberedPorts.mp hwired
    exact ⟨size, t, hfit, hpos, hbits, hissued, hout, hlast⟩
  · rintro ⟨size, t, hfit, hpos, hbits, hissued, rfl, rfl⟩
    obtain ⟨hle, hone, -⟩ := hfit.bounds
    have hsize : p.fittingLut (Request.lut inputs.length) inputs.length = .ok size := by
      rw [fittingLut, hfit.smallest]
    rw [lut, buildLut, bind_of_ok (lift_of_ok (positive_lut.mpr ⟨rfl, hpos⟩)),
      bind_of_ok (lift_of_ok hsize),
      bind_of_ok (lift_of_ok (Request.wire_numberedPorts.mpr ⟨rfl, hbits⟩))]
    cases hissued with
    | new made =>
      simp only
      rw [bind_of_ok made, bind_of_ok (Count.lift_checkPlain hfit.plain t),
        bind_of_ok (placeLut_eq l.table t hone hle)]
      rfl
    | again hinputs =>
      simp only [hinputs, if_true]
      rw [bind_of_ok (show (pure l : Build Refusal LutProgram) next = .ok (l, next) from rfl),
        bind_of_ok (Count.lift_checkPlain hfit.plain next),
        bind_of_ok (placeLut_eq l.table next hone hle)]
      rfl

variable {count next last t : Nat} {given : Option LutProgram} {l : LutProgram}

theorem LutIssued.inputs_eq (h : LutIssued count next given l t) : l.inputs = count := by
  cases h with
  | new made =>
    obtain ⟨table, t, -, h⟩ := of_bind made
    cases h
    rfl
  | again inputs => exact inputs

theorem LutIssued.le (h : LutIssued count next given l t) : next ≤ t := by
  cases h with
  | new made =>
    obtain ⟨table, t, htable, h⟩ := of_bind made
    cases h
    obtain ⟨rfl, -⟩ := of_newBits htable
    omega
  | again inputs => exact le_rfl

theorem LutIssued.complete (h : LutIssued count next given l t)
    (hgiven : ∀ g ∈ given, g.Complete) : l.Complete := by
  cases h with
  | new made =>
    obtain ⟨table, t, htable, h⟩ := of_bind made
    cases h
    obtain ⟨-, hlen, hall⟩ := of_newBits htable
    exact ⟨hlen, fun k hk => (hall k hk).1, nodup_newBits htable⟩
  | again inputs => exact hgiven l rfl

theorem LutIssued.issued (h : LutIssued count next given l t) :
    ∀ k ∈ l.table, k ∈ (given.map LutProgram.table).getD [] ∨ next ≤ k.tag ∧ k.tag < t := by
  cases h with
  | new made =>
    obtain ⟨table, t, htable, h⟩ := of_bind made
    cases h
    exact fun k hk => .inr ((of_newBits htable).2.2 k hk).2
  | again inputs => exact fun k hk => .inl hk

/-- The output of a lookup table with a program: it uses its inputs and its program, and is the
entry that the inputs spell. -/
structure LutOutput (inputs : List Expr) (l : LutProgram) (out : Expr) : Prop where
  ones : ∀ h ∈ l.table, h.width = 1
  placed : ∃ t size, 1 ≤ size ∧ size ≤ 8 ∧ inputs.length ≤ size ∧ l.table.length ≤ twoPow size ∧
    out = placedLut t size inputs l.table

namespace LutOutput

variable {inputs : List Expr} {out : Expr} (h : LutOutput inputs l out)

include h

theorem shape : out.shape = .word 1 := by
  obtain ⟨t, size, -, -, -, -, rfl⟩ := h.placed
  rfl

theorem uses : ∀ x ∈ inputs, x ∈ out.preorder := by
  obtain ⟨t, size, -, -, -, -, rfl⟩ := h.placed
  exact fun x hx => mem_placedLut_of_mem hx

theorem wires : ∀ k ∈ l.table, .hole k ∈ out.preorder := by
  obtain ⟨t, size, -, -, -, -, rfl⟩ := h.placed
  exact fun k hk => hole_mem_placedLut hk

theorem driver : ∃ t n, ∀ i, out.driver? (Primitive.inputName i) =
    (inputs ++ List.replicate n (zeroBit t))[i]? := by
  obtain ⟨t, size, -, -, le, -, rfl⟩ := h.placed
  exact ⟨t, _, driver?_placedLut le⟩

theorem eval_of_settles {c : Context Bool} {τ : Hole → Bool} (hc : c.Settles τ l.table)
    {bits : List Bool}
    (hbits : List.Forall₂ (fun x b => eval c x = .ok (.word [b])) inputs bits) :
    eval c out = .ok (.word [l.read τ bits]) := by
  obtain ⟨t, size, pos, small, le, full, rfl⟩ := h.placed
  exact eval_placedLut pos small le full hc hbits

theorem eval (env : Valuation) (τ : Hole → Bool) (bits : List Bool)
    (hbits : List.Forall₂ (fun x b => Expr.eval (.settled env τ) x = .ok (.word [b])) inputs bits) :
    Expr.eval (.settled env τ) out = .ok (.word [l.read τ bits]) :=
  h.eval_of_settles (Context.settles_settled env τ h.ones) hbits

end LutOutput

/-- A lookup table that is placed reads single bits, and its program is complete. -/
structure LutSpec (inputs : List Expr) (given : Option LutProgram) (next : Nat) (out : Expr)
    (l : LutProgram) (last : Nat) : Prop where
  pos : 1 ≤ inputs.length
  bits : ∀ x ∈ inputs, x.shape = .word 1
  inputs_eq : l.inputs = inputs.length
  complete : l.Complete
  output : LutOutput inputs l out
  sketched : Sketched inputs ((given.map LutProgram.table).getD []) l.table next last [out]

theorem twoPow_le_twoPow {m n : Nat} (h : m ≤ n) : twoPow m ≤ twoPow n := by
  rw [twoPow_eq, twoPow_eq]
  exact Nat.pow_le_pow_right (by omega) h

theorem lut_spec {inputs : List Expr} {out : Expr} (hgiven : ∀ g ∈ given, g.Complete)
    (h : p.lut inputs given next = .ok ((out, l), last)) :
    LutSpec inputs given next out l last := by
  obtain ⟨size, t, hfit, hpos, hbits, hissued, rfl, rfl⟩ := lut_eq_ok.mp h
  obtain ⟨hle, hone, hsmall⟩ := hfit.bounds
  have hinputs := hissued.inputs_eq
  have hcomplete := hissued.complete hgiven
  have hfull : l.table.length ≤ twoPow size := by
    rw [hcomplete.length, hinputs, Int.toNat_natCast]
    exact twoPow_le_twoPow hle
  have hnext := hissued.le
  have houtput : LutOutput inputs l (placedLut t size inputs l.table) :=
    ⟨hcomplete.ones, t, size, hone, hsmall, hle, hfull, rfl⟩
  refine ⟨hpos, hbits, hinputs, hcomplete, houtput, by omega, fun k hk => ?_, ?_⟩
  · exact (hissued.issued k hk).imp_right fun ⟨hge, hlt⟩ => ⟨hge, by omega⟩
  · intro y hy
    rw [List.mem_singleton] at hy
    subst hy
    exact (grown_placedLut hone hsmall hle hbits hcomplete.ones hfull).mono (fun _ hx => hx)
      (fun _ hk => hk) (fun _ => False.elim)

/-- A program that is handed in is the one that is used. -/
theorem lut_kept {inputs : List Expr} {out : Expr} {g : LutProgram}
    (h : p.lut inputs (some g) next = .ok ((out, l), last)) : l = g := by
  obtain ⟨size, t, -, -, -, hissued, -, -⟩ := lut_eq_ok.mp h
  cases hissued
  rfl

theorem lut_sized {inputs : List Expr} {out : Expr}
    (h : p.lut inputs given next = .ok ((out, l), last)) : l.inputs = inputs.length := by
  obtain ⟨size, t, -, -, -, hissued, -, -⟩ := lut_eq_ok.mp h
  exact hissued.inputs_eq

/-- A lookup table can be placed between bits that one of its sizes has inputs for. -/
theorem exists_lut {xs : List Expr} {size : Nat} (fits : p.Fitting xs.length size)
    (pos : 1 ≤ xs.length) (bits : ∀ x ∈ xs, x.shape = .word 1) (given : Option LutProgram)
    (sized : ∀ g ∈ given, g.inputs = xs.length) (next : Nat) :
    ∃ out l last, p.lut xs given next = .ok ((out, l), last) ∧ ∀ g ∈ given, l = g := by
  cases given with
  | none =>
    obtain ⟨table, t, htable⟩ := succeeds_newBits (ε := Refusal) (twoPow xs.length) next
    have hissued : LutIssued xs.length next none ⟨xs.length, table⟩ t := .new (bind_of_ok htable)
    exact ⟨_, _, _, lut_eq_ok.mpr ⟨size, t, fits, pos, bits, hissued, rfl, rfl⟩, by simp⟩
  | some g =>
    exact ⟨_, g, _, lut_eq_ok.mpr ⟨size, next, fits, pos, bits, .again (sized g rfl), rfl, rfl⟩,
      by simp⟩

/-- As many single bits can be read with a new program, or with any for that many. -/
theorem lut_reusable {inputs : List Expr} {out : Expr}
    (h : p.lut inputs given next = .ok ((out, l), last)) (inputs' : List Expr)
    (length : inputs'.length = inputs.length) (bits : ∀ x ∈ inputs', x.shape = .word 1)
    (given' : Option LutProgram) (sized : ∀ g ∈ given', g.inputs = inputs.length) (next' : Nat) :
    ∃ out' l' last', p.lut inputs' given' next' = .ok ((out', l'), last') ∧ ∀ g ∈ given', l' = g := by
  obtain ⟨size, t, hfit, hpos, -, -, -, -⟩ := lut_eq_ok.mp h
  rw [← length] at hfit hpos sized
  exact exists_lut hfit hpos bits given' sized next'

end Platform
end CircuitSketch
