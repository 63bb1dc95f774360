import CircuitSketch.Reduction.Row
import Mathlib.Data.List.Forall2

/-!
# Windows of rows

The windows of one size cover every position of a row once, and fill what is left with the pad. An
operation for which neither order nor grouping counts, and for which the pad counts nothing,
therefore gives the same result window by window as over all bits at once.
-/
namespace CircuitSketch

theorem getElem?_flatMap_of_length {α γ : Type} {f : α → List γ} {n : Nat} (hn : 0 < n)
    (length : ∀ x, (f x).length = n) (xs : List α) (j : Nat) :
    (xs.flatMap f)[j]? = xs[j / n]?.bind fun x => (f x)[j % n]? := by
  induction xs generalizing j with
  | nil => simp
  | cons x xs ih =>
    rw [List.flatMap_cons]
    by_cases hj : j < n
    · rw [List.getElem?_append_left (by rwa [length]), Nat.div_eq_of_lt hj, Nat.mod_eq_of_lt hj]
      rfl
    · obtain ⟨i, rfl⟩ : ∃ i, j = i + n := ⟨j - n, by omega⟩
      rw [List.getElem?_append_right (by rw [length]; omega), length, Nat.add_sub_cancel, ih,
        Nat.add_div_right i hn, Nat.add_mod_right, List.getElem?_cons_succ]

theorem flatMap_eq_flatMap_range {α γ : Type} (xs : List α) (f : α → List γ) (d : α) :
    xs.flatMap f = (List.range xs.length).flatMap fun q => f (xs.getD q d) := by
  have hxs : xs = (List.range xs.length).map (xs.getD · d) := by
    refine List.ext_getElem (by simp) fun i h1 h2 => ?_
    simp [List.getD_eq_getElem?_getD, h1]
  conv_lhs => rw [hxs, List.flatMap_map]

/-- An operation on bits for which neither order nor grouping counts, with its neutral bit. -/
structure Pools (op : Bool → Bool → Bool) (e : Bool) : Prop where
  assoc : ∀ x y z, op (op x y) z = op x (op y z)
  comm : ∀ x y, op x y = op y x
  neutral : ∀ x, op e x = x

theorem pools_or : Pools or false := ⟨by decide, by decide, by decide⟩

theorem pools_and : Pools and true := ⟨by decide, by decide, by decide⟩

theorem pools_xor : Pools Bool.xor false := ⟨by decide, by decide, by decide⟩

namespace Pools

variable {op : Bool → Bool → Bool} {e : Bool} {α : Type}

theorem foldr_append (h : Pools op e) (xs ys : List Bool) :
    (xs ++ ys).foldr op e = op (xs.foldr op e) (ys.foldr op e) := by
  induction xs with
  | nil => exact (h.neutral _).symm
  | cons x xs ih => rw [List.cons_append, List.foldr_cons, ih, List.foldr_cons, h.assoc]

theorem foldr_flatMap (h : Pools op e) (xs : List α) (f : α → List Bool) :
    (xs.flatMap f).foldr op e = (xs.map fun x => (f x).foldr op e).foldr op e := by
  induction xs with
  | nil => rfl
  | cons x xs ih => rw [List.flatMap_cons, h.foldr_append, ih, List.map_cons, List.foldr_cons]

/-- Two families pooled side by side are pooled one after the other. -/
theorem foldr_map_op (h : Pools op e) (xs : List α) (f g : α → Bool) :
    (xs.map fun x => op (f x) (g x)).foldr op e =
      op ((xs.map f).foldr op e) ((xs.map g).foldr op e) := by
  induction xs with
  | nil => exact (h.neutral e).symm
  | cons x xs ih =>
    simp only [List.map_cons, List.foldr_cons]
    rw [ih, h.assoc, h.assoc, ← h.assoc (g x), h.comm (g x), h.assoc]

theorem foldr_neutral (h : Pools op e) {xs : List Bool} (hxs : ∀ x ∈ xs, x = e) :
    xs.foldr op e = e := by
  induction xs with
  | nil => rfl
  | cons x xs ih =>
    rw [List.foldr_cons, ih fun y hy => hxs y (by simp [hy]), hxs x (by simp), h.neutral]

end Pools

namespace Row

variable {α γ : Type} {rows : List (List α)} {window index count : Nat} {pad : List α}

/-- The elements of one window across all rows, filled up with the pad. -/
def windowOf (rows : List (List α)) (window index : Nat) (pad : List α) : List α :=
  rows.flatMap fun row =>
    let items := (row.drop (index * window)).take window
    items ++ (List.replicate (window - items.length) pad).flatten

/-- A window is one of those that cover a length if it starts before the end. -/
theorem lt_windowCount_iff {length k : Nat} (hw : 0 < window) :
    k < windowCount length window ↔ k * window < length := by
  rw [windowCount, Nat.lt_iff_add_one_le, Nat.le_div_iff_mul_le hw, Nat.succ_mul]
  omega

/-- The windows reach the end of a row. -/
theorem le_windowCount_mul {length : Nat} (hw : 0 < window) :
    length ≤ windowCount length window * window :=
  Nat.le_of_not_lt fun h => Nat.lt_irrefl _ ((lt_windowCount_iff hw).mpr h)

/-- Windows that fill a length are all full. -/
theorem succ_mul_le_of_full {length k : Nat} (full : length % window = 0)
    (hk : k < windowCount length window) : (k + 1) * window ≤ length := by
  rcases Nat.eq_zero_or_pos window with rfl | hw
  · simp
  · obtain ⟨n, rfl⟩ := Nat.dvd_of_mod_eq_zero full
    have hkn : k * window < n * window := by
      rw [Nat.mul_comm n]
      exact (lt_windowCount_iff hw).mp hk
    rw [Nat.mul_comm window]
    exact Nat.mul_le_mul_right window (Nat.lt_of_mul_lt_mul_right hkn)

theorem windowBits_eq (rows : List (List Expr)) (window index : Nat) (pad : List Expr) :
    windowBits rows window index pad = windowOf rows window index pad := rfl

/-- Windows of related rows are related. -/
theorem forall₂_windowOf {R : α → γ → Prop} {rows' : List (List γ)} {pad' : List γ}
    (hrows : List.Forall₂ (List.Forall₂ R) rows rows') (hpad : List.Forall₂ R pad pad') :
    List.Forall₂ R (windowOf rows window index pad) (windowOf rows' window index pad') := by
  refine List.rel_flatMap hrows ?_
  intro row row' hrow
  have hitems := List.forall₂_take window (List.forall₂_drop (index * window) hrow)
  refine List.rel_append hitems (List.rel_flatten ?_)
  rw [hitems.length_eq]
  exact List.forall₂_iff_get.mpr ⟨by simp, fun i h1 h2 => by simpa using hpad⟩

/-- Where the rows fill a window the pad does not matter. -/
theorem windowOf_eq_of_full (pad pad' : List α)
    (full : ∀ row ∈ rows, (index + 1) * window ≤ row.length) :
    windowOf rows window index pad = windowOf rows window index pad' := by
  have hrest : ∀ row ∈ rows, window - ((row.drop (index * window)).take window).length = 0 := by
    intro row hrow
    have hlength := full row hrow
    rw [Nat.succ_mul] at hlength
    rw [List.length_take, List.length_drop]
    omega
  rw [windowOf, windowOf, List.flatMap_def, List.flatMap_def, List.map_congr_left fun row hrow => ?_]
  simp only [hrest row hrow, List.replicate_zero]

/-- A window takes its bits from the rows as long as they last, and then from the pad. -/
theorem windowOf_eq_flatMap {length : Nat} (b : α) (same : ∀ row ∈ rows, row.length = length)
    (hk : index < windowCount length window) (fill : length % window ≠ 0 → pad = [b]) :
    windowOf rows window index pad =
      rows.flatMap fun row => (List.range window).map fun o => row.getD (index * window + o) b := by
  have hpad : windowOf rows window index pad = windowOf rows window index [b] := by
    by_cases full : length % window = 0
    · exact windowOf_eq_of_full _ _ fun row hrow => same row hrow ▸ succ_mul_le_of_full full hk
    · rw [fill full]
  rw [hpad, windowOf, List.flatMap_def, List.flatMap_def]
  congr 1
  refine List.map_congr_left fun row hrow => List.ext_getElem? fun o => ?_
  have hlen : ((row.drop (index * window)).take window).length =
      min window (row.length - index * window) := by
    rw [List.length_take, List.length_drop]
  simp only [List.flatten_replicate_singleton, List.getElem?_map, List.getD_eq_getElem?_getD]
  rcases Nat.lt_or_ge o window with ho | ho
  · rw [List.getElem?_range ho, Option.map_some]
    by_cases hin : index * window + o < row.length
    · rw [List.getElem?_append_left (by omega), List.getElem?_take_of_lt ho, List.getElem?_drop,
        List.getElem?_eq_getElem hin, Option.getD_some]
    · rw [List.getElem?_append_right (by omega), List.getElem?_replicate_of_lt (by omega),
        List.getElem?_eq_none (by omega), Option.getD_none]
  · rw [List.getElem?_eq_none (by simp only [List.length_append, List.length_replicate]; omega),
      List.getElem?_eq_none (by simpa using ho), Option.map_none]

theorem mem_windowOf {x : α} (h : x ∈ windowOf rows window index pad) :
    x ∈ rows.flatten ∨ x ∈ pad := by
  obtain ⟨row, hrow, hx⟩ := List.mem_flatMap.mp h
  rcases List.mem_append.mp hx with hx | hx
  · exact .inl (List.mem_flatten.mpr ⟨row, hrow, List.mem_of_mem_drop (List.mem_of_mem_take hx)⟩)
  · obtain ⟨padding, hpadding, hx⟩ := List.mem_flatten.mp hx
    exact .inr ((List.mem_replicate.mp hpadding).2 ▸ hx)

/-- The slices of a row are the row as far as they reach. -/
theorem flatMap_slices (row : List α) (window count : Nat) :
    ((List.range count).flatMap fun k => (row.drop (k * window)).take window) =
      row.take (count * window) := by
  induction count generalizing row with
  | zero => simp
  | succ count ih =>
    rw [List.range_succ_eq_map, List.flatMap_cons, List.flatMap_map, Nat.zero_mul, List.drop_zero,
      Nat.succ_mul, Nat.add_comm, List.take_add, ← ih]
    congr 2
    funext k
    rw [List.drop_drop, Nat.succ_mul, Nat.add_comm]

/-- Rows that the slices cover are the same if the slices are. -/
theorem eq_iff_slices {row row' : List α} (hrow : row.length ≤ count * window)
    (hrow' : row'.length ≤ count * window) : row = row' ↔ ∀ k < count,
      (row.drop (k * window)).take window = (row'.drop (k * window)).take window := by
  constructor
  · rintro rfl k -
    rfl
  · intro h
    rw [← List.take_of_length_le hrow, ← List.take_of_length_le hrow', ← flatMap_slices,
      ← flatMap_slices, List.flatMap_def, List.flatMap_def,
      List.map_congr_left fun k hk => h k (List.mem_range.mp hk)]

/-- An operation over each window and then over the results is the operation over all bits. -/
theorem foldr_windows {op : Bool → Bool → Bool} {e : Bool} (h : Pools op e)
    {rows : List (List Bool)} {pad : List Bool} (hpad : ∀ b ∈ pad, b = e)
    (hrows : ∀ row ∈ rows, row.length ≤ count * window) :
    ((List.range count).map fun k => (windowOf rows window k pad).foldr op e).foldr op e =
      rows.flatten.foldr op e := by
  induction rows with
  | nil =>
    refine h.foldr_neutral fun b hb => ?_
    obtain ⟨k, -, rfl⟩ := List.mem_map.mp hb
    rfl
  | cons row rows ih =>
    have hslice : ∀ k, (windowOf (row :: rows) window k pad).foldr op e =
        op (((row.drop (k * window)).take window).foldr op e)
          ((windowOf rows window k pad).foldr op e) := by
      intro k
      have hfill : (List.replicate (window - ((row.drop (k * window)).take window).length)
          pad).flatten.foldr op e = e := by
        refine h.foldr_neutral fun b hb => ?_
        obtain ⟨padding, hpadding, hb⟩ := List.mem_flatten.mp hb
        exact hpad b ((List.mem_replicate.mp hpadding).2 ▸ hb)
      rw [windowOf, List.flatMap_cons, h.foldr_append, h.foldr_append, hfill, h.comm _ e, h.neutral]
      rfl
    simp only [hslice]
    rw [h.foldr_map_op, ih fun r hr => hrows r (by simp [hr]), ← h.foldr_flatMap, flatMap_slices,
      List.take_of_length_le (hrows row (by simp)), List.flatten_cons, h.foldr_append]

end Row
end CircuitSketch
