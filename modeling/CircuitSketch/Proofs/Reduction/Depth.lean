import CircuitSketch.Proofs.Reduction.Total
import Mathlib.Algebra.Order.Floor.Div
import Mathlib.Data.Nat.Log

/-!
# The depth of a reduction

A level that packs a single row divides its length by the size of the largest lookup table, rounded
up, so the levels after the first one are the logarithm of what the first one leaves, rounded up.
The first level packs all rows side by side and need not shorten them. Nothing else than the rows
and the sizes of the lookup tables decides whether there is a reduction, and how deep it is.
-/
namespace CircuitSketch.Reduction

open Build

/-- Rows that can be reduced: at least one, all of one length above zero and made of single bits.
There is room for them in the largest lookup table, and it has two inputs if there is anything to
shorten. -/
structure Reducible (p : Platform) (length : Nat) (rows : List (List Operand)) : Prop where
  even : ∃ words : List (List Expr),
    rows = words.map (fun row => row.map .expr) ∧ Row.Even length words
  room : p.Packs rows.length
  shortens : ¬ (p.maxLut = 1 ∧ 1 < length)

/-- The depth of a tree of lookup tables of a size over a number of windows is the least one that
reaches them all. -/
def IsDepth (size windows depth : Nat) : Prop :=
  if windows = 1 then depth = 1
  else 2 ≤ depth ∧ size ^ (depth - 2) < windows ∧ windows ≤ size ^ (depth - 1)

theorem isDepth_clog {size windows : Nat} (pos : 0 < windows) (two : 1 < windows → 2 ≤ size) :
    IsDepth size windows (1 + Nat.clog size windows) := by
  rw [IsDepth]
  split
  · next hone => rw [hone, Nat.clog_one_right]
  · next hone =>
    have hmany : 1 < windows := by omega
    have hsize : 1 < size := two hmany
    have hpos := Nat.clog_pos hsize hmany
    have hlow := Nat.pow_pred_clog_lt_self hsize hmany
    have hhigh := Nat.le_pow_clog hsize windows
    refine ⟨by omega, ?_, ?_⟩
    · rwa [show 1 + Nat.clog size windows - 2 = (Nat.clog size windows).pred by
        rw [Nat.pred_eq_sub_one]; omega]
    · rwa [Nat.add_sub_cancel_left]

/-- One level less is left once a row is packed. -/
theorem clog_windowCount {size length : Nat} (two : 2 ≤ size) (several : 1 < length) :
    Nat.clog size (Row.windowCount length size) + 1 = Nat.clog size length :=
  (Nat.clog_of_two_le (by omega) (by omega)).symm

variable {p : Platform} {share : Bool} {next last : Nat}

theorem Folded.length_programs {row : List Expr} {given programs : List RowProgram} {bit : Expr}
    (h : Folded p share row given next bit programs last) :
    programs.length = Nat.clog p.maxLut row.length := by
  induction h with
  | single => exact (Nat.clog_one_right _).symm
  | @further row outs given programs bit window r used next mid last several even complete size
      packed spec rest ih =>
    obtain ⟨-, rfl⟩ := Platform.window_eq_ok.mp size
    have hlength : 1 < row.length := by
      have := even.pos
      omega
    obtain ⟨⟨hle, -, -⟩, hnarrow⟩ := Row.packs_of_packBits even packed
    rw [List.length_singleton] at hle
    have hcount : outs.length = Row.windowCount row.length p.maxLut :=
      spec.length_eq.trans (by rw [Nat.div_one])
    rw [List.length_cons, ih, hcount]
    exact clog_windowCount (by omega) hlength

/-- A reduction has as many levels as the windows of the first one call for. -/
theorem length_levels {rows : List (List Expr)} {length : Nat} {given : Option ReductionProgram}
    {bit : Expr} {s : ReductionProgram} (heven : Row.Even length rows)
    (hgiven : ∀ g ∈ given, g.Complete)
    (h : reduce p (rows.map fun row => row.map .expr) given share next = .ok ((bit, s), last)) :
    s.levels.length = 1 + Nat.clog p.maxLut (length ⌈/⌉ (p.maxLut / rows.length)) := by
  obtain ⟨outs, r, rs, mid, used, rfl, -, hspec, hfold⟩ := of_reduce heven hgiven h
  rw [List.length_cons, hfold.length_programs, hspec.length_eq, Nat.add_comm]
  rfl

/-- A reduction is as deep as a tree of the largest lookup tables over the windows of the first
level. -/
theorem isDepth_levels {rows : List (List Expr)} {length : Nat} {given : Option ReductionProgram}
    {bit : Expr} {s : ReductionProgram} (heven : Row.Even length rows)
    (hgiven : ∀ g ∈ given, g.Complete)
    (h : reduce p (rows.map fun row => row.map .expr) given share next = .ok ((bit, s), last)) :
    IsDepth p.maxLut (length ⌈/⌉ (p.maxLut / rows.length)) s.levels.length := by
  obtain ⟨⟨hle, -, -⟩, hnarrow⟩ := packs_of_reduce heven h
  have hrows : 0 < rows.length := List.length_pos_iff.mpr heven.ne
  have hwindow : 0 < p.maxLut / rows.length := Nat.div_pos hle hrows
  rw [length_levels heven hgiven h]
  refine isDepth_clog ?_ (two_le_of_windowCount heven hle hnarrow)
  exact (Row.lt_windowCount_iff hwindow).mpr (by simpa using heven.pos)

/-- Only rows that can be reduced are, whatever program is handed in for them. -/
theorem reducible_of_reduce {rows : List (List Operand)} {given : Option ReductionProgram}
    {bit : Expr} {s : ReductionProgram} (h : reduce p rows given share next = .ok ((bit, s), last)) :
    ∃ length, Reducible p length rows := by
  obtain ⟨words, length, rfl, heven⟩ := even_of_reduce h
  obtain ⟨hroom, hnarrow⟩ := packs_of_reduce heven h
  exact ⟨length, ⟨words, rfl, heven⟩, by simpa using hroom, hnarrow⟩

/-- Where a reduction stands: the rows still to be packed, the programs handed in for them and for
later levels, the programs of the levels so far, and the next free tag. -/
structure Worklist where
  rows : List (List Operand)
  handed : List RowProgram
  done : List RowProgram
  next : Nat

namespace Worklist

/-- Packs the rows of a worklist. -/
def pack (w : Worklist) (p : Platform) (share : Bool) :
    Except Refusal ((List Expr × RowProgram) × Nat) :=
  Row.pack p w.rows w.handed.head? share false w.next

/-- A worklist whose rows were packed into one, which is to be packed next. -/
def further (w : Worklist) (row : List Expr) (r : RowProgram) (next : Nat) : Worklist :=
  ⟨[row.map .expr], w.handed.tail, w.done ++ [r], next⟩

/-- The rows of a worklist are packed, and the outputs again, for as many rounds as it takes. The
rounds end with one bit and the programs of all levels, or with a refusal. -/
inductive Ends (p : Platform) (share : Bool) :
    Worklist → Except Refusal ((Expr × ReductionProgram) × Nat) → Prop
  | refused {w : Worklist} {err : Refusal} (packed : w.pack p share = .error err) :
      Ends p share w (.error err)
  | single {w : Worklist} {bit : Expr} {r : RowProgram} {t : Nat}
      (packed : w.pack p share = .ok (([bit], r), t)) :
      Ends p share w (.ok ((bit, ⟨w.done ++ [r]⟩), t))
  | several {w : Worklist} {row : List Expr} {r : RowProgram} {t : Nat}
      {result : Except Refusal ((Expr × ReductionProgram) × Nat)}
      (packed : w.pack p share = .ok ((row, r), t)) (long : row.length ≠ 1)
      (rest : Ends p share (w.further row r t) result) : Ends p share w result

/-- What is left of a reduction after a round. -/
def finish (p : Platform) (share : Bool) (done handed : List RowProgram) (row : List Expr) :
    Build Refusal (Expr × ReductionProgram) :=
  fold p share (furtherLevels p.maxLut row.length) row handed >>= fun f =>
    pure (f.1, ⟨done ++ f.2⟩)

theorem finish_singleton (done handed : List RowProgram) (bit : Expr) :
    finish p share done handed [bit] next = .ok ((bit, ⟨done⟩), next) := by
  rw [finish, fold_singleton]
  show Except.ok ((bit, (⟨done ++ []⟩ : ReductionProgram)), next) = _
  rw [List.append_nil]

/-- A worklist of one row after another round. -/
theorem finish_further {row : List Expr} (ne : row ≠ []) (bits : ∀ x ∈ row, x.shape = .word 1)
    (long : row.length ≠ 1) (done : List RowProgram) {handed : List RowProgram}
    (hgiven : ∀ g ∈ handed, g.Complete) :
    finish p share done handed row next =
      (Row.packBits p [row] handed.head? share false >>= fun q =>
        finish p share (done ++ [q.2]) handed.tail q.1) next := by
  have hfold : fold p share (furtherLevels p.maxLut row.length) row handed next = _ :=
    fold_further ne bits long handed hgiven
  rw [finish]
  cases hpack : Row.packBits p [row] handed.head? share false next with
  | error err =>
    rw [bind_of_error hpack] at hfold
    rw [bind_of_error hfold, bind_of_error hpack]
  | ok q =>
    obtain ⟨⟨outs, r⟩, t⟩ := q
    rw [bind_of_ok hpack] at hfold ⊢
    simp only at hfold ⊢
    rw [finish]
    cases hrest : fold p share (furtherLevels p.maxLut outs.length) outs handed.tail t with
    | error err =>
      rw [bind_of_error hrest] at hfold
      rw [bind_of_error hfold, bind_of_error hrest]
    | ok f =>
      obtain ⟨⟨bit, rs⟩, last⟩ := f
      rw [bind_of_ok hrest] at hfold
      rw [bind_of_ok hfold, bind_of_ok hrest, List.append_assoc]
      rfl

/-- A worklist ends if what it is packed into does. -/
theorem ends_of_further {w : Worklist}
    (rest : ∀ row r t, w.pack p share = .ok ((row, r), t) → row.length ≠ 1 →
      Ends p share (w.further row r t) (finish p share (w.done ++ [r]) w.handed.tail row t)) :
    Ends p share w ((Row.pack p w.rows w.handed.head? share false >>= fun q =>
      finish p share (w.done ++ [q.2]) w.handed.tail q.1) w.next) := by
  cases hpack : Row.pack p w.rows w.handed.head? share false w.next with
  | error err =>
    rw [bind_of_error hpack]
    exact .refused hpack
  | ok q =>
    obtain ⟨⟨row, r⟩, t⟩ := q
    rw [bind_of_ok hpack]
    by_cases hone : row.length = 1
    · obtain ⟨bit, rfl⟩ := List.length_eq_one_iff.mp hone
      rw [finish_singleton]
      exact .single hpack
    · exact .several hpack hone (rest row r t hpack hone)

/-- A worklist of one row ends: every round shortens the row. -/
theorem ends_row {row : List Expr} (ne : row ≠ []) (bits : ∀ x ∈ row, x.shape = .word 1)
    (long : row.length ≠ 1) (done : List RowProgram) {handed : List RowProgram}
    (hgiven : ∀ g ∈ handed, g.Complete) :
    Ends p share ⟨[row.map .expr], handed, done, next⟩ (finish p share done handed row next) := by
  induction hn : row.length using Nat.strong_induction_on generalizing row handed done next with
  | _ n ih =>
    subst hn
    have heven := even_singleton ne bits
    have hpack : ∀ given next, Row.pack p [row.map .expr] given share false next =
        Row.packBits p [row] given share false next := fun given next => by
      rw [Row.pack, ← List.map_singleton (f := List.map Operand.expr),
        bind_of_ok (lift_of_ok (check_expr.mpr ⟨rfl, row.length, heven⟩))]
    have hround : finish p share done handed row next =
        (Row.pack p [row.map .expr] handed.head? share false >>= fun q =>
          finish p share (done ++ [q.2]) handed.tail q.1) next := by
      rw [finish_further ne bits long done hgiven]
      simp only [Bind.bind, StateT.bind, hpack]
    rw [hround]
    refine ends_of_further fun outs r t houts hlong => ?_
    rw [Worklist.pack, hpack] at houts
    obtain ⟨⟨hle, -, -⟩, hnarrow⟩ := Row.packs_of_packBits heven houts
    rw [List.length_singleton] at hle
    obtain ⟨-, used, hspec⟩ := Row.packBits_spec_largest heven
      (fun g hg => hgiven g (List.mem_of_head? hg)) houts
    have hlength : 1 < row.length := by
      have := List.length_pos_iff.mpr ne
      omega
    have hlt := hspec.length_lt hlength (by omega)
    exact ih outs.length hlt (hspec.outs_ne heven) hspec.shape hlong (done ++ [r])
      (fun g hg => hgiven g (List.mem_of_mem_tail hg)) rfl

end Worklist

/-- A reduction packs its rows, and the outputs again, until one bit is left or the rows are turned
down; this comes to an end for all rows. -/
theorem ends_reduce (rows : List (List Operand)) (given : Option ReductionProgram)
    (hgiven : ∀ g ∈ given, g.Complete) (next : Nat) :
    Worklist.Ends p share ⟨rows, handedLevels given, [], next⟩ (reduce p rows given share next) := by
  refine Worklist.ends_of_further (w := ⟨rows, handedLevels given, [], next⟩)
    fun outs r t houts hlong => ?_
  have hlevels := complete_handedLevels hgiven
  obtain ⟨words, _, hrows, hpack⟩ := of_bind houts
  obtain ⟨hcheck, rfl⟩ := of_lift hrows
  obtain rfl := of_check hcheck
  obtain ⟨-, length, heven⟩ := check_expr.mp hcheck
  obtain ⟨-, used, hspec⟩ := Row.packBits_spec_largest heven
    (fun g hg => hlevels g (List.mem_of_head? hg)) hpack
  exact Worklist.ends_row (hspec.outs_ne heven) hspec.shape hlong [r]
    fun g hg => hlevels g (List.mem_of_mem_tail hg)

/-- Rows are reduced to one bit if and only if they can be, and then in as few levels as a tree of
the largest lookup tables needs over the windows of the first level. Whether a first level shortens
the rows or not, the rounds come to an end. -/
theorem reduce_depth (p : Platform) (rows : List (List Operand)) (share : Bool) (next : Nat) :
    ((∃ bit s last, reduce p rows none share next = .ok ((bit, s), last)) ↔
      ∃ length, Reducible p length rows) ∧
    (∀ bit s last length, reduce p rows none share next = .ok ((bit, s), last) →
      (∀ row ∈ rows, row.length = length) →
        IsDepth p.maxLut (length ⌈/⌉ (p.maxLut / rows.length)) s.levels.length) ∧
    Worklist.Ends p share ⟨rows, [], [], next⟩ (reduce p rows none share next) := by
  refine ⟨⟨fun ⟨bit, s, last, h⟩ => reducible_of_reduce h, ?_⟩, ?_,
    ends_reduce rows none (by simp) next⟩
  · rintro ⟨length, ⟨words, rfl, heven⟩, room, shortens⟩
    rw [List.length_map] at room
    exact exists_reduce heven room shortens share none (by simp) trivial next
  · intro bit s last length h same
    obtain ⟨words, length', rfl, heven⟩ := even_of_reduce h
    rw [List.length_map]
    obtain ⟨row, hrow⟩ := List.exists_mem_of_ne_nil _ heven.ne
    obtain rfl : length' = length := by
      rw [← same _ (List.mem_map_of_mem hrow), List.length_map, heven.same row hrow]
    exact isDepth_levels heven (by simp) h

/-- Three rows of five bits between tables of four inputs: the first level has windows of one bit
and leaves five, and two more levels are needed. -/
theorem reduce_depth_narrow : ∃ bit s last,
    reduce .latticeEcp5 (List.replicate 3 (List.replicate 5 (.expr (Expr.input 0 "a" 1)))) none true 1 =
      .ok ((bit, s), last) ∧ s.levels.length = 3 := by
  let words : List (List Expr) := List.replicate 3 (List.replicate 5 (Expr.input 0 "a" 1))
  have heven : Row.Even 5 words :=
    ⟨by decide, by simp [words], by simp [words], by simp [words, Expr.input]⟩
  obtain ⟨hreturns, hdepth, -⟩ :=
    reduce_depth .latticeEcp5 (words.map fun row => row.map .expr) true 1
  have room : Platform.latticeEcp5.Packs 3 :=
    (Platform.plain_of_mem_known (by simp [Platform.known])).packs_iff.mpr (by decide)
  obtain ⟨bit, s, last, h⟩ := hreturns.mpr ⟨5, ⟨words, rfl, heven⟩, room, by decide⟩
  have hwindows : 5 ⌈/⌉ (Platform.latticeEcp5.maxLut /
      (words.map fun row => row.map Operand.expr).length) = 5 := by decide
  have hs := hdepth bit s last 5 h (by simp [words])
  rw [hwindows] at hs
  obtain ⟨-, hlow, hhigh⟩ : 2 ≤ s.levels.length ∧ 4 ^ (s.levels.length - 2) < 5 ∧
      5 ≤ 4 ^ (s.levels.length - 1) := hs
  have hle : s.levels.length - 2 < 2 :=
    (Nat.pow_lt_pow_iff_right (by decide : 1 < 4)).mp (hlow.trans (by decide))
  have hge : 1 < s.levels.length - 1 :=
    (Nat.pow_lt_pow_iff_right (by decide : 1 < 4)).mp ((by decide : 4 ^ 1 < 5).trans_le hhigh)
  exact ⟨bit, s, last, h, by omega⟩

end CircuitSketch.Reduction
