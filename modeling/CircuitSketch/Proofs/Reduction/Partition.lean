import CircuitSketch.Proofs.Interface.Programmed
import CircuitSketch.Proofs.Reduction.Tree
import Mathlib.Algebra.BigOperators.Ring.Finset
import Mathlib.Algebra.Order.Floor.Div

/-!
# Packed rows are a partition

Input `q * window + o` of a window reads the bit of row `q` that is `o` positions into the window.
By division with remainder every bit of the rows is read by one input of one window, and an input
for which there is no bit is one of the last window, where the pad is wired instead. The output of a
window is therefore the entry of its table whose number has the bits of the rows as its digits.
-/
namespace CircuitSketch

open CircuitSketch.Expr Build

/-- The number of bits that are listed by their positions. -/
theorem Word.toNat_map_range (f : Nat → Bool) (n : Nat) :
    Word.toNat ((List.range n).map f) = ∑ i ∈ Finset.range n, (f i).toNat <<< i := by
  induction n with
  | zero => rfl
  | succ n ih =>
    rw [List.range_succ, List.map_append, Word.toNat_append, ih, Finset.sum_range_succ,
      List.length_map, List.length_range, twoPow_eq, Nat.shiftLeft_eq, Nat.mul_comm]
    simp

/-- The number of bits that are listed row by row. -/
theorem Word.toNat_flatMap_range (f : Nat → Nat → Bool) (m n : Nat) :
    Word.toNat ((List.range m).flatMap fun q => (List.range n).map (f q)) =
      ∑ q ∈ Finset.range m, ∑ o ∈ Finset.range n, (f q o).toNat <<< (q * n + o) := by
  induction m with
  | zero => rfl
  | succ m ih =>
    have hlen : ((List.range m).flatMap fun q => (List.range n).map (f q)).length = m * n := by
      simp [List.length_flatMap]
    rw [List.range_succ, List.flatMap_append, List.flatMap_singleton, Word.toNat_append, ih, hlen,
      Finset.sum_range_succ, Word.toNat_map_range, Finset.mul_sum, twoPow_eq]
    congr 1
    refine Finset.sum_congr rfl fun o _ => ?_
    rw [Nat.shiftLeft_eq, Nat.shiftLeft_eq, Nat.pow_add]
    exact Nat.mul_left_comm _ _ _

namespace Row

/-- The row and the position there of the bit that input `j` of window `k` is for, where windows of
one size are cut from rows of one length. There is none past the end of the rows. -/
def source (length window k j : Nat) : Option (Nat × Nat) :=
  if k * window + j % window < length then some (j / window, k * window + j % window) else none

/-- What is wired to an input of the lookup table of a window. -/
def wired? (outs : List Expr) (k j : Nat) : Option Expr :=
  outs[k]?.bind fun out => out.driver? (Primitive.inputName j)

section Source

variable {length window k j q i : Nat}

theorem source_eq_some_iff : source length window k j = some (q, i) ↔
    i < length ∧ q = j / window ∧ i = k * window + j % window := by
  rw [source]
  split
  · next h =>
    simp only [Option.some.injEq, Prod.mk.injEq]
    constructor
    · rintro ⟨rfl, rfl⟩
      exact ⟨h, rfl, rfl⟩
    · rintro ⟨-, rfl, rfl⟩
      exact ⟨rfl, rfl⟩
  · next h =>
    simp only [reduceCtorEq, false_iff, not_and]
    rintro hi - rfl
    exact h hi

theorem source_eq_none_iff :
    source length window k j = none ↔ length ≤ k * window + j % window := by
  rw [source]
  split <;> simp <;> omega

/-- Every bit of the rows is the source of one input of one window. -/
theorem existsUnique_source (hw : 0 < window) {m : Nat} (hq : q < m) (hi : i < length) :
    ∃! slot : Nat × Nat, slot.1 < windowCount length window ∧ slot.2 < m * window ∧
      source length window slot.1 slot.2 = some (q, i) := by
  have hmod := Nat.mod_lt i hw
  have hdiv := Nat.div_add_mod' i window
  refine ⟨(i / window, q * window + i % window), ⟨?_, ?_, ?_⟩, ?_⟩
  · rw [lt_windowCount_iff hw]
    simp only
    omega
  · have hle : (q + 1) * window ≤ m * window := Nat.mul_le_mul_right window hq
    rw [Nat.succ_mul] at hle
    simp only
    omega
  · rw [source_eq_some_iff, Nat.mul_comm q, Nat.mul_add_mod, Nat.mod_mod, Nat.mul_add_div hw,
      Nat.div_eq_of_lt hmod]
    exact ⟨hi, rfl, hdiv.symm⟩
  · rintro ⟨k, j⟩ ⟨-, -, hsource⟩
    obtain ⟨-, rfl, rfl⟩ := source_eq_some_iff.mp hsource
    have hj := Nat.mod_lt j hw
    rw [Nat.mul_comm k, Nat.mul_add_div hw, Nat.div_eq_of_lt hj, Nat.mul_add_mod, Nat.mod_mod,
      Nat.div_add_mod', Nat.add_zero]

/-- A bit is missing only from the last window, and only if that is not full. -/
theorem last_of_source_eq_none (hw : 0 < window) (hk : k < windowCount length window)
    (h : source length window k j = none) :
    k + 1 = windowCount length window ∧ ¬ window ∣ length := by
  have hmissing := source_eq_none_iff.mp h
  have hj := Nat.mod_lt j hw
  have hreach : length < (k + 1) * window := by
    rw [Nat.succ_mul]
    omega
  refine ⟨Nat.le_antisymm hk (Nat.le_of_not_lt fun hnext => ?_), fun hdvd => ?_⟩
  · exact Nat.lt_asymm hreach ((lt_windowCount_iff hw).mp hnext)
  · exact Nat.not_le_of_lt hreach (succ_mul_le_of_full (Nat.mod_eq_zero_of_dvd hdvd) hk)

/-- The values of a window spell the number that has them as digits row by row. -/
theorem toNat_windowOf {vals : List (List Bool)} {pad : Option Hole} {τ : Hole → Bool}
    (same : ∀ row ∈ vals, row.length = length) (hk : k < windowCount length window)
    (padded : length % window ≠ 0 → pad.isSome) :
    Word.toNat (windowOf vals window k (pad.map τ).toList) =
      ∑ q ∈ Finset.range vals.length, ∑ o ∈ Finset.range window,
        ((vals.getD q []).getD (k * window + o) (pad.any τ)).toNat <<< (q * window + o) := by
  rw [windowOf_eq_flatMap (pad.any τ) same hk fun part => ?_, flatMap_eq_flatMap_range _ _ [],
    Word.toNat_flatMap_range]
  obtain ⟨e, rfl⟩ := Option.isSome_iff_exists.mp (padded part)
  rfl

end Source

/-- Rows of one length in windows of one size: every bit is wired once, and the pad where a bit is
missing. Each output is the entry of its table, which all windows share or each has for itself, that
the bits of the window spell. -/
structure Partitioned (rows : List (List Expr)) (length : Nat) (share : Bool) (window : Nat)
    (outs : List Expr) (r : RowProgram) : Prop where
  count : outs.length = length ⌈/⌉ window
  tables : r.luts.length = if share then 1 else outs.length
  bits : ∀ k j q i, k < outs.length → j < rows.length * window →
    source length window k j = some (q, i) →
      ∃ row x, rows[q]? = some row ∧ row[i]? = some x ∧ wired? outs k j = some x
  once : ∀ q < rows.length, ∀ i < length, ∃! slot : Nat × Nat,
    slot.1 < outs.length ∧ slot.2 < rows.length * window ∧
      source length window slot.1 slot.2 = some (q, i)
  fill : ∀ k j, k < outs.length → j < rows.length * window → source length window k j = none →
    k + 1 = outs.length ∧ ¬ window ∣ length ∧ ∃ e ∈ r.pad, wired? outs k j = some (.hole e)
  spare : ∀ k j, rows.length * window ≤ j → ∀ x ∈ wired? outs k j, ∃ t, x = zeroBit t
  pad : ∀ e ∈ r.pad, (∀ row ∈ rows, .hole e ∉ row) → ∀ k j, wired? outs k j = some (.hole e) →
    k + 1 = outs.length ∧ ¬ window ∣ length
  eval : ∀ (env : Valuation) (σ : Assignment) (vals : List (List Bool)),
    List.Forall₂ (List.Forall₂ fun x b => x.interpret env σ Primitive.standard = .ok b.toNat) rows
      vals → ∀ k out, outs[k]? = some out → σ.Covers out.holes →
        ∃ l e, r.luts[if share then 0 else k]? = some l ∧
          l.table[∑ q ∈ Finset.range rows.length, ∑ o ∈ Finset.range window,
            ((vals.getD q []).getD (k * window + o) (r.pad.any σ.truth)).toNat <<<
              (q * window + o)]? = some e ∧
          out.interpret env σ Primitive.standard = .ok (σ.truth e).toNat

/-- A program of rows that were packed before, made anew or taken over from other rows. -/
inductive Issued : RowProgram → Prop
  | packed {p : Platform} {rows : List (List Operand)} {given : Option RowProgram}
      {share even : Bool} {next last : Nat} {outs : List Expr} {r : RowProgram}
      (before : ∀ g ∈ given, Issued g)
      (run : pack p rows given share even next = .ok ((outs, r), last)) : Issued r

theorem Issued.complete {r : RowProgram} (h : Issued r) : r.Complete := by
  induction h with
  | packed before run ih =>
    obtain ⟨checked, _, hrows, hpack⟩ := of_bind run
    obtain ⟨hcheck, rfl⟩ := of_lift hrows
    obtain rfl := Reduction.of_check hcheck
    obtain ⟨-, length, heven⟩ := Reduction.check_expr.mp hcheck
    obtain ⟨_, _, -, hspec⟩ := packBits_spec heven ih hpack
    exact hspec.complete

section Packed

variable {p : Platform} {rows : List (List Expr)} {given : Option RowProgram} {share even : Bool}
  {next last length window k j q i : Nat} {outs : List Expr} {r : RowProgram}
  {used : List LutProgram} {out x : Expr}

theorem lt_length_of_wired? (h : wired? outs k j = some x) : k < outs.length := by
  by_contra hk
  rw [wired?, List.getElem?_eq_none (by omega)] at h
  cases h

namespace PackSpec

variable (h : PackSpec length rows given share window next outs r used last)
  (heven : Even length rows)

include h

/-- The table of a window is the one that all share, or its own. -/
theorem getElem?_luts (hk : k < used.length) : r.luts[if share then 0 else k]? = some used[k] := by
  have hused := h.used_eq
  cases share with
  | true =>
    obtain ⟨l, hluts, rfl⟩ := hused
    simp [hluts]
  | false =>
    obtain rfl : used = r.luts := hused
    simp [hk]

theorem last_of_source (hk : k < outs.length) (hsource : source length window k j = none) :
    k + 1 = outs.length ∧ ¬ window ∣ length := by
  rw [h.length_eq] at hk ⊢
  exact last_of_source_eq_none h.pos hk hsource

include heven

theorem exists_used (hk : k < outs.length) : ∃ l, used[k]? = some l := by
  rw [h.length_eq, ← h.length_used heven] at hk
  exact ⟨_, List.getElem?_eq_getElem hk⟩

/-- The bits of a window, row by row. -/
theorem windowOf_eq (hk : k < outs.length) :
    windowOf rows window k (r.pad.map Expr.hole).toList = rows.flatMap fun row =>
      (List.range window).map fun o =>
        row.getD (k * window + o) ((r.pad.map Expr.hole).getD default) := by
  refine windowOf_eq_flatMap _ heven.same (h.length_eq ▸ hk) fun part => ?_
  obtain ⟨e, he⟩ := Option.isSome_iff_exists.mp (h.padded part)
  rw [he]
  rfl

/-- The inputs of the lookup table of a window are the window, and then zeros. -/
theorem wired?_eq (hk : k < outs.length) : ∃ t n, ∀ j, wired? outs k j =
    ((rows.flatMap fun row => (List.range window).map fun o =>
      row.getD (k * window + o) ((r.pad.map Expr.hole).getD default)) ++
        List.replicate n (zeroBit t))[j]? := by
  obtain ⟨l, hl⟩ := h.exists_used heven hk
  obtain ⟨t, n, hdriver⟩ := (h.lutOutput (List.getElem?_eq_getElem hk) hl).driver
  rw [h.windowOf_eq heven hk] at hdriver
  refine ⟨t, n, fun j => ?_⟩
  rw [wired?, List.getElem?_eq_getElem hk, Option.bind_some, hdriver]

/-- What is wired to an input of a window is the bit of the rows there, or else the pad. -/
theorem wired?_of_lt (hk : k < outs.length) (hj : j < rows.length * window) :
    ∃ row, rows[j / window]? = some row ∧ row.length = length ∧ wired? outs k j =
      some (row.getD (k * window + j % window) ((r.pad.map Expr.hole).getD default)) := by
  obtain ⟨t, n, hwired⟩ := h.wired?_eq heven hk
  have hq : j / window < rows.length := Nat.div_lt_of_lt_mul (Nat.mul_comm _ _ ▸ hj)
  refine ⟨rows[j / window], List.getElem?_eq_getElem hq, heven.same _ (List.getElem_mem hq), ?_⟩
  rw [hwired, List.getElem?_append_left (by simpa [List.length_flatMap] using hj),
    getElem?_flatMap_of_length h.pos (by simp), List.getElem?_eq_getElem hq]
  simp [Nat.mod_lt j h.pos]

/-- What is wired beyond a window is zero. -/
theorem wired?_of_le (hj : rows.length * window ≤ j) (hx : wired? outs k j = some x) :
    ∃ t, x = zeroBit t := by
  obtain ⟨t, n, hwired⟩ := h.wired?_eq heven (lt_length_of_wired? hx)
  rw [hwired, List.getElem?_append_right (by simpa [List.length_flatMap] using hj)] at hx
  exact ⟨t, (List.mem_replicate.mp (List.mem_of_getElem? hx)).2⟩

/-- An input with a source reads this bit. -/
theorem wired?_of_source (hk : k < outs.length) (hj : j < rows.length * window)
    (hsource : source length window k j = some (q, i)) :
    ∃ row x, rows[q]? = some row ∧ row[i]? = some x ∧ wired? outs k j = some x := by
  obtain ⟨hi, rfl, rfl⟩ := source_eq_some_iff.mp hsource
  obtain ⟨row, hrow, hlen, hwired⟩ := h.wired?_of_lt heven hk hj
  obtain ⟨x, hx⟩ : ∃ x, row[k * window + j % window]? = some x :=
    ⟨_, List.getElem?_eq_getElem (hlen ▸ hi)⟩
  refine ⟨row, x, hrow, hx, ?_⟩
  rw [hwired, List.getD_eq_getElem?_getD, hx, Option.getD_some]

/-- An input without a source reads the pad. -/
theorem wired?_of_source_eq_none (hk : k < outs.length) (hj : j < rows.length * window)
    (hsource : source length window k j = none) :
    ∃ e ∈ r.pad, wired? outs k j = some (.hole e) := by
  obtain ⟨row, -, hlen, hwired⟩ := h.wired?_of_lt heven hk hj
  have hpart : length % window ≠ 0 := fun full =>
    (h.last_of_source hk hsource).2 (Nat.dvd_of_mod_eq_zero full)
  obtain ⟨e, he⟩ := Option.isSome_iff_exists.mp (h.padded hpart)
  refine ⟨e, he, ?_⟩
  have hmissing := source_eq_none_iff.mp hsource
  rw [hwired, he, List.getD_eq_getElem?_getD, List.getElem?_eq_none (hlen.symm ▸ hmissing)]
  rfl

/-- Where no bit of the rows is the pad, an input that reads the pad has no source. -/
theorem source_of_wired?_pad {e : Hole} (fresh : ∀ row ∈ rows, .hole e ∉ row)
    (hwired : wired? outs k j = some (.hole e)) : source length window k j = none := by
  have hk := lt_length_of_wired? hwired
  rcases Nat.lt_or_ge j (rows.length * window) with hj | hj
  · refine Option.eq_none_iff_forall_not_mem.mpr fun slot hslot => ?_
    obtain ⟨row, x, hrow, hx, hwired'⟩ := h.wired?_of_source heven hk hj hslot
    obtain rfl := Option.some.inj (hwired.symm.trans hwired')
    exact fresh row (List.mem_of_getElem? hrow) (List.mem_of_getElem? hx)
  · obtain ⟨t, hzero⟩ := h.wired?_of_le heven hj hwired
    cases hzero

/-- The lookup table of a window is wired to the holes that its output has. -/
theorem wiredAt_subset_holes {l : LutProgram} (hout : outs[k]? = some out) (hl : used[k]? = some l) :
    l.wiredAt r.pad length window k ⊆ out.holes := by
  have houtput := h.lutOutput hout hl
  intro e he
  rw [mem_holes]
  rcases List.mem_append.mp he with he | he
  · exact houtput.wires e he
  · split at he
    · next part =>
      have hpad : r.pad = some e := Option.mem_toList.mp he
      have hmem : .hole e ∈ windowOf rows window k [.hole e] :=
        pad_mem_windowOf heven.ne heven.same h.pos part
      exact houtput.uses _ (by rwa [hpad])
    · cases he

/-- The output of a window is the entry of its table that its bits spell. -/
theorem eval_entry (hout : outs[k]? = some out) {l : LutProgram} (hl : used[k]? = some l)
    {c : Context Bool} {τ : Hole → Bool} (hc : c.Settles τ (l.wiredAt r.pad length window k))
    {vals : List (List Bool)}
    (hvals : List.Forall₂ (List.Forall₂ fun x b => Expr.eval c x = .ok (.word [b])) rows vals) :
    ∃ e, l.table[∑ q ∈ Finset.range rows.length, ∑ o ∈ Finset.range window,
        ((vals.getD q []).getD (k * window + o) (r.pad.any τ)).toNat <<<
          (q * window + o)]? = some e ∧ Expr.eval c out = .ok (.word [τ e]) := by
  have same : ∀ row ∈ vals, row.length = length := by
    intro bits hmem
    obtain ⟨row, hrow, hrel⟩ := exists_of_forall₂_right hvals hmem
    rw [← hrel.length_eq, heven.same row hrow]
  have hk : k < windowCount length window := h.length_eq ▸ (List.getElem?_eq_some_iff.mp hout).1
  obtain ⟨hused, rfl⟩ := List.getElem?_eq_some_iff.mp hl
  obtain ⟨e, he, hread⟩ := (h.complete.luts _ (h.mem_luts (List.getElem_mem hused))).exists_entry
    (h.length_windowOf τ hvals hused)
  refine ⟨e, ?_, hread τ ▸ h.eval_window heven hout hl hc hvals⟩
  rwa [toNat_windowOf same hk h.padded, ← hvals.length_eq] at he

/-- Rows that are packed into windows are partitioned. -/
theorem partitioned (wellFormed : ∀ row ∈ rows, ∀ x ∈ row, x.WellFormed) :
    Partitioned rows length share window outs r where
  count := by rw [h.length_eq, Nat.ceilDiv_eq_add_pred_div, windowCount]
  tables := h.length_luts heven
  bits _ _ _ _ := h.wired?_of_source heven
  once q hq i hi := by
    rw [h.length_eq]
    exact existsUnique_source h.pos hq hi
  fill k j hk hj hsource := by
    obtain ⟨hlast, hpart⟩ := h.last_of_source hk hsource
    exact ⟨hlast, hpart, h.wired?_of_source_eq_none heven hk hj hsource⟩
  spare _ _ hj _ := h.wired?_of_le heven hj
  pad _ _ fresh _ _ hwired := h.last_of_source (lt_length_of_wired? hwired)
    (h.source_of_wired?_pad heven fresh hwired)
  eval env σ vals hvals k out hout covers := by
    obtain ⟨l, hl⟩ := h.exists_used heven (List.getElem?_eq_some_iff.mp hout).1
    have hused := (List.getElem?_eq_some_iff.mp hl).1
    have hholes := RowProgram.wiredAt_subset (h.mem_luts (List.mem_of_getElem? hl)) length window k
    have hsettles : (Context.concrete env σ Primitive.standard).Settles σ.truth
        (l.wiredAt r.pad length window k) :=
      Context.settles_concrete env (fun e he => h.complete.ones e (hholes he))
        fun e he => covers e (h.wiredAt_subset_holes heven hout hl he)
    obtain ⟨e, he, hvalue⟩ :=
      h.eval_entry heven hout hl hsettles (heven.eval_of_interpret wellFormed hvals)
    refine ⟨l, e, ?_, he, interpret_bit_of_eval (h.shape out (List.mem_of_getElem? hout)) hvalue⟩
    rw [h.getElem?_luts hused, ← hl, List.getElem?_eq_getElem hused]

end PackSpec

/-- Rows that are packed, with a new program or one of rows packed before, are partitioned into
windows of the size that the platform has for as many rows. -/
theorem pack_partitions (wellFormed : ∀ row ∈ rows, ∀ x ∈ row, x.WellFormed)
    (same : ∀ row ∈ rows, row.length = length) (hgiven : ∀ g ∈ given, Issued g)
    (h : pack p (rows.map fun row => row.map .expr) given share even next =
      .ok ((outs, r), last)) :
    ∃ window, p.window rows.length even = .ok window ∧
      Partitioned rows length share window.value outs r := by
  obtain ⟨checked, _, hrows, hpack⟩ := of_bind h
  obtain ⟨hcheck, rfl⟩ := of_lift hrows
  obtain ⟨rfl, length', heven⟩ := Reduction.check_expr.mp hcheck
  obtain ⟨row, hrow⟩ := List.exists_mem_of_ne_nil _ heven.ne
  obtain rfl : length' = length := (heven.same row hrow).symm.trans (same row hrow)
  obtain ⟨window, used, hwindow, hspec⟩ :=
    packBits_spec heven (fun g hg => (hgiven g hg).complete) hpack
  exact ⟨window, hwindow, hspec.partitioned heven wellFormed⟩

/-- Two rows of three bits, in two windows of two bits each, with the tables and the pad that were
made for the same rows in turned order. In the last window every other input reads the pad. -/
theorem pack_partitions_three : ∃ rows outs r last,
    rows = [["a", "b", "c"].zipIdx.map fun n => input n.2 n.1 1,
      ["x", "y", "z"].zipIdx.map fun n => input (n.2 + 3) n.1 1] ∧ Issued r ∧
    pack .latticeEcp5 (rows.map fun row => row.map .expr) (some r) false false 47 =
      .ok ((outs, r), last) ∧
    Partitioned rows 3 false 2 outs r ∧ ∃ out σ, outs[1]? = some out ∧
      out.interpret [("a", 0), ("b", 0), ("c", 1), ("x", 1), ("y", 1), ("z", 0)] σ
        Primitive.standard = .ok 1 := by
  let rows : List (List Expr) := [["a", "b", "c"].zipIdx.map fun n => input n.2 n.1 1,
    ["x", "y", "z"].zipIdx.map fun n => input (n.2 + 3) n.1 1]
  let low : List Hole := (List.range' 7 16).map (⟨·, 1, none⟩)
  let high : List Hole := (List.range' 27 16).map (⟨·, 1, none⟩)
  let r : RowProgram := ⟨[⟨4, low⟩, ⟨4, high⟩], some ⟨6, 1, none⟩⟩
  obtain ⟨_, _, made⟩ : ∃ outs last, pack .latticeEcp5
      (rows.reverse.map fun row => row.map .expr) none false false 6 = .ok ((outs, r), last) :=
    exists_of_program (by decide +kernel)
  have before : ∀ g ∈ (none : Option RowProgram), Issued g := by simp
  have issued : Issued r := .packed before made
  obtain ⟨outs, last, h⟩ : ∃ outs last, pack .latticeEcp5 (rows.map fun row => row.map .expr)
      (some r) false false 47 = .ok ((outs, r), last) := exists_of_program (by decide +kernel)
  have same : ∀ row ∈ rows, row.length = 3 := by simp [rows]
  obtain ⟨window, hwindow, hparts⟩ :=
    pack_partitions (by simp [rows, wellFormed_input]) same (by simpa using issued) h
  have htwo : Platform.latticeEcp5.window 2 false =
      .ok ⟨2, Platform.latticeEcp5.largest.pointed⟩ := rfl
  obtain rfl := Except.ok.inj (htwo.symm.trans hwindow)
  obtain ⟨out₀, out, rfl⟩ := List.length_eq_two.mp hparts.count
  -- The pad is set, and of the second table the entry of the number `1 + 2 + 8`.
  let σ : Assignment := .ofTruth (r.holes ++ out.holes)
    fun e => e.tag = 6 ∨ e.tag = 38
  let env : Valuation := [("a", 0), ("b", 0), ("c", 1), ("x", 1), ("y", 1), ("z", 0)]
  have value {t : Nat} {name : String} {b : Bool} (found : env.lookup name = some (b.toNat : Int)) :
      (input t name 1).interpret env σ Primitive.standard = .ok b.toNat :=
    interpret_input found (by cases b <;> decide)
  obtain ⟨l, e, hl, he, heval⟩ := hparts.eval env σ [[false, false, true], [true, true, false]]
    (.cons (.cons (value rfl) (.cons (value rfl) (.cons (value rfl) .nil)))
      (.cons (.cons (value rfl) (.cons (value rfl) (.cons (value rfl) .nil))) .nil)) 1 out rfl
    (Assignment.covers_ofTruth (List.subset_append_right _ _))
  obtain rfl : (⟨4, high⟩ : LutProgram) = l := Option.some.inj hl
  have hpad : σ.truth ⟨6, 1, none⟩ = true := by
    rw [Assignment.truth_ofTruth (List.mem_append_left _ (by decide))]
    rfl
  obtain rfl : (⟨38, 1, none⟩ : Hole) = e := by
    simpa [rows, r, hpad, high, Finset.sum_range_succ] using he
  rw [Assignment.truth_ofTruth (List.mem_append_left _ (by decide))] at heval
  exact ⟨rows, _, r, last, rfl, issued, h, hparts, out, σ, rfl, heval⟩

end Packed

end Row
end CircuitSketch
