import CircuitSketch.Datum.Distinct
import Mathlib.Algebra.Order.Ring.Int
import Mathlib.Data.List.Chain
import Mathlib.Data.List.Perm.Basic

/-!
# Sorting data of one linear order

Data that stand for the members of a linear order always have an answer to a comparison, so they
can be sorted: a start that rises or falls is taken over, and each further item goes where halving
finds its place. What comes out holds the same items in order. Items that are the same are
neighbours there, so comparing neighbours finds every repetition.
-/
namespace CircuitSketch.Datum

/-- Data that stand for the members of a linear order. -/
structure Represents {α : Type} [LinearOrder α] (f : α → Datum) : Prop where
  less : ∀ a b, itemLess? (f a) (f b) = some (decide (a < b))
  same : ∀ a b, same (f a) (f b) = decide (a = b)

variable {α : Type} [LinearOrder α] {f : α → Datum}

theorem Represents.exists_ascending (hf : Represents f) (last : α) (items : List α) :
    ∃ run rest : List α, ascending (f last) (items.map f) = some (run.map f, rest.map f) ∧
      run ++ rest = items ∧ (last :: run).IsChain (· ≤ ·) := by
  induction items generalizing last with
  | nil => exact ⟨[], [], rfl, rfl, .singleton _⟩
  | cons a items ih =>
    rw [List.map_cons, ascending, hf.less]
    by_cases hlt : a < last
    · exact ⟨[], a :: items, by simp [hlt], rfl, .singleton _⟩
    · obtain ⟨run, rest, hrun, hitems, hchain⟩ := ih a
      refine ⟨a :: run, rest, by simp [hlt, hrun], by simp [hitems], ?_⟩
      exact List.isChain_cons_cons.mpr ⟨not_lt.mp hlt, hchain⟩

theorem Represents.exists_descending (hf : Represents f) (last : α) (items : List α) :
    ∃ run rest : List α, descending (f last) (items.map f) = some (run.map f, rest.map f) ∧
      run ++ rest = items ∧ (last :: run).IsChain (· > ·) := by
  induction items generalizing last with
  | nil => exact ⟨[], [], rfl, rfl, .singleton _⟩
  | cons a items ih =>
    rw [List.map_cons, descending, hf.less]
    by_cases hlt : a < last
    · obtain ⟨run, rest, hrun, hitems, hchain⟩ := ih a
      refine ⟨a :: run, rest, by simp [hlt, hrun], by simp [hitems], ?_⟩
      exact List.isChain_cons_cons.mpr ⟨hlt, hchain⟩
    · exact ⟨[], a :: items, by simp [hlt], rfl, .singleton _⟩

/-- The start of a list that is taken over is in order. -/
theorem Represents.exists_sortedStart (hf : Represents f) (items : List α) :
    ∃ start rest : List α, sortedStart (items.map f) = some (start.map f, rest.map f) ∧
      (start ++ rest).Perm items ∧ start.Pairwise (· ≤ ·) := by
  match items with
  | [] => exact ⟨[], [], rfl, .refl _, .nil⟩
  | [a] => exact ⟨[a], [], rfl, .refl _, List.pairwise_singleton _ _⟩
  | a :: b :: items =>
    rw [List.map_cons, List.map_cons, sortedStart, hf.less]
    by_cases hlt : b < a
    · obtain ⟨run, rest, hrun, hitems, hchain⟩ := hf.exists_descending b items
      refine ⟨(a :: b :: run).reverse, rest, by simp [hlt, hrun], ?_, ?_⟩
      · rw [← hitems]
        exact (List.reverse_perm (a :: b :: run)).append_right rest
      · have hfall : (a :: b :: run).Pairwise (· > ·) :=
          List.isChain_iff_pairwise.mp (List.isChain_cons_cons.mpr ⟨hlt, hchain⟩)
        exact List.pairwise_reverse.mpr (hfall.imp le_of_lt)
    · obtain ⟨run, rest, hrun, hitems, hchain⟩ := hf.exists_ascending b items
      refine ⟨a :: b :: run, rest, by simp [hlt, hrun], by simp [hitems], ?_⟩
      exact List.isChain_iff_pairwise.mp (List.isChain_cons_cons.mpr ⟨not_lt.mp hlt, hchain⟩)

/-- The place of an item among sorted ones lies between two bounds. -/
structure PlaceWithin (sorted : List α) (d : α) (lo hi : Nat) : Prop where
  le : lo ≤ hi
  bound : hi ≤ sorted.length
  below : ∀ i (h : i < sorted.length), i < lo → sorted[i] ≤ d
  above : ∀ i (h : i < sorted.length), hi ≤ i → d < sorted[i]

section Place

variable {sorted : List α} {d : α} {lo hi mid : Nat}

theorem getElem_mono (hs : sorted.Pairwise (· ≤ ·)) {i j : Nat} (hij : i ≤ j)
    (hj : j < sorted.length) : sorted[i] ≤ sorted[j] := by
  rcases Nat.lt_or_eq_of_le hij with hlt | rfl
  · exact List.pairwise_iff_getElem.mp hs i j (by omega) hj hlt
  · exact le_rfl

theorem PlaceWithin.lower (hp : PlaceWithin sorted d lo hi) (hs : sorted.Pairwise (· ≤ ·))
    (hlo : lo ≤ mid) (hmid : mid < sorted.length) (h : d < sorted[mid]) :
    PlaceWithin sorted d lo mid where
  le := hlo
  bound := hmid.le
  below := hp.below
  above _ bound hle := h.trans_le (getElem_mono hs hle bound)

theorem PlaceWithin.upper (hp : PlaceWithin sorted d lo hi) (hs : sorted.Pairwise (· ≤ ·))
    (hhi : mid < hi) (hmid : mid < sorted.length) (h : sorted[mid] ≤ d) :
    PlaceWithin sorted d (mid + 1) hi where
  le := hhi
  bound := hp.bound
  below i hi hlt := (getElem_mono hs (by omega) hmid).trans h
  above := hp.above

/-- Halving ends at the place of an item. -/
theorem Represents.exists_placeOf (hf : Represents f) (hs : sorted.Pairwise (· ≤ ·)) {fuel : Nat}
    (enough : hi - lo ≤ fuel) (hp : PlaceWithin sorted d lo hi) :
    ∃ place, placeOf (sorted.map f).toArray (f d) fuel lo hi = some place ∧
      PlaceWithin sorted d place place := by
  induction fuel generalizing lo hi with
  | zero =>
    obtain rfl : lo = hi := by have := hp.le; omega
    exact ⟨lo, rfl, hp⟩
  | succ fuel ih =>
    rw [placeOf]
    by_cases hlt : lo < hi
    · have hmid : (lo + hi) / 2 < hi := by omega
      have hbound : (lo + hi) / 2 < sorted.length := hmid.trans_le hp.bound
      have hget : (sorted.map f).toArray.getD ((lo + hi) / 2) (f d) = f sorted[(lo + hi) / 2] := by
        simp [Array.getD, hbound]
      simp only [if_pos hlt, hget, hf.less, bind, Option.bind]
      by_cases hd : d < sorted[(lo + hi) / 2]
      · simp only [hd, decide_true, if_true]
        exact ih (by omega) (hp.lower hs (by omega) hbound hd)
      · simp only [hd, decide_false, Bool.false_eq_true, if_false]
        exact ih (by omega) (hp.upper hs hmid hbound (not_lt.mp hd))
    · obtain rfl : lo = hi := by have := hp.le; omega
      exact ⟨lo, if_neg hlt, hp⟩

/-- An item at its place keeps the order. -/
theorem PlaceWithin.pairwise (hp : PlaceWithin sorted d lo lo) (hs : sorted.Pairwise (· ≤ ·)) :
    (sorted.take lo ++ d :: sorted.drop lo).Pairwise (· ≤ ·) := by
  have hbelow : ∀ x ∈ sorted.take lo, x ≤ d := by
    intro x hx
    obtain ⟨i, hi, rfl⟩ := List.mem_take_iff_getElem.mp hx
    exact hp.below i (by omega) (by omega)
  have habove : ∀ x ∈ sorted.drop lo, d ≤ x := by
    intro x hx
    obtain ⟨i, hi, rfl⟩ := List.mem_drop_iff_getElem.mp hx
    exact (hp.above (lo + i) (by omega) (by omega)).le
  refine List.pairwise_append.mpr
    ⟨hs.take, List.pairwise_cons.mpr ⟨habove, hs.drop⟩, fun x hx y hy => ?_⟩
  rcases List.mem_cons.mp hy with rfl | hy
  · exact hbelow x hx
  · exact (hbelow x hx).trans (habove y hy)

end Place

theorem Represents.exists_insertAll (hf : Represents f) {sorted : List α}
    (hs : sorted.Pairwise (· ≤ ·)) (items : List α) :
    ∃ out : List α, insertAll (sorted.map f) (items.map f) = some (out.map f) ∧
      out.Perm (sorted ++ items) ∧ out.Pairwise (· ≤ ·) := by
  induction items generalizing sorted with
  | nil => exact ⟨sorted, rfl, by simp, hs⟩
  | cons d items ih =>
    have hwhole : PlaceWithin sorted d 0 sorted.length :=
      ⟨Nat.zero_le _, le_rfl, fun _ _ h => absurd h (Nat.not_lt_zero _), fun _ h hle => by omega⟩
    obtain ⟨place, hplace, hp⟩ := hf.exists_placeOf hs (Nat.sub_le sorted.length 0) hwhole
    obtain ⟨out, hout, hperm, hsorted⟩ := ih (hp.pairwise hs)
    refine ⟨out, ?_, hperm.trans ?_, hsorted⟩
    · rw [List.map_cons, insertAll, List.length_map, hplace]
      simpa using hout
    · rw [List.append_assoc, List.cons_append]
      refine List.perm_middle.trans ?_
      rw [← List.append_assoc, List.take_append_drop]
      exact List.perm_middle.symm

/-- Data of one linear order are sorted. -/
theorem Represents.exists_sort (hf : Represents f) (items : List α) :
    ∃ out : List α, sort? (items.map f) = some (out.map f) ∧
      out.Perm items ∧ out.Pairwise (· ≤ ·) := by
  obtain ⟨start, rest, hstart, hitems, hsorted⟩ := hf.exists_sortedStart items
  obtain ⟨out, hout, hperm, hpairwise⟩ := hf.exists_insertAll hsorted rest
  refine ⟨out, ?_, hperm.trans hitems, hpairwise⟩
  rw [sort?, hstart]
  exact hout

theorem Represents.distinctNeighbours_iff (hf : Represents f) {sorted : List α}
    (hs : sorted.Pairwise (· ≤ ·)) : distinctNeighbours (sorted.map f) = true ↔ sorted.Nodup := by
  match sorted with
  | [] => simp [distinctNeighbours]
  | [a] => simp [distinctNeighbours]
  | a :: b :: rest =>
    obtain ⟨ha, hrest⟩ := List.pairwise_cons.mp hs
    have hnotin : a ∉ b :: rest ↔ a ≠ b := by
      refine ⟨fun h => (List.ne_of_not_mem_cons h), fun hne hmem => hne ?_⟩
      have hle : b ≤ a := by
        rcases List.mem_cons.mp hmem with rfl | hmem
        · exact le_rfl
        · exact (List.pairwise_cons.mp hrest).1 a hmem
      exact le_antisymm (ha b List.mem_cons_self) hle
    rw [List.nodup_cons, hnotin, ← hf.distinctNeighbours_iff hrest]
    simp [distinctNeighbours, hf.same]

/-- A list of such data counts as repeating itself exactly when some item stands there twice. -/
theorem Represents.distinct_iff (hf : Represents f) (items : List α) :
    distinct (items.map f) = true ↔ items.Nodup := by
  obtain ⟨out, hout, hperm, hsorted⟩ := hf.exists_sort items
  rw [distinct, hout, ← hperm.nodup_iff]
  exact hf.distinctNeighbours_iff hsorted

theorem aligned_ofInt (a b : Int) :
    Fraction.aligned (decide (a < 0)) a.natAbs 0 (decide (b < 0)) b.natAbs 0 = (a, b) := by
  have hsigned (n : Int) : Fraction.signed (decide (n < 0)) n.natAbs = n := by
    rw [Fraction.signed]
    by_cases h : n < 0
    · rw [if_pos (by simpa using h)]
      omega
    · rw [if_neg (by simpa using h)]
      omega
  simp [Fraction.aligned, hsigned]

/-- Whole numbers are ordered by their sizes. -/
theorem represents_int : Represents int where
  less a b := by
    simp [itemLess?, less?, bare, leafLess?, points?, magnitude?, number?, Fraction.ofInt,
      Fraction.less, aligned_ofInt]
  same a b := by
    simp [same, bare, leafSame, leafAlike, points?, magnitude?, number?, Fraction.ofInt,
      Fraction.equal, aligned_ofInt]

end CircuitSketch.Datum
