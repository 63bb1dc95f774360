import Mathlib.Algebra.Order.Ring.Int
import Mathlib.Data.List.Nodup

/-!
# Entries under names

Variables, ports and fields are kept as entries under names, and the first entry under a name is the
one that is found.
-/
namespace CircuitSketch

variable {α γ : Type}

theorem mem_of_lookup_eq_some {entries : List (String × α)} {name : String} {x : α}
    (h : entries.lookup name = some x) : (name, x) ∈ entries := by
  obtain ⟨before, after, hsplit, -⟩ := List.lookup_eq_some_iff.mp h
  simp [hsplit]

theorem lookup_eq_none_iff {entries : List (String × α)} {name : String} :
    entries.lookup name = none ↔ name ∉ entries.map (·.1) := by
  simp only [List.lookup_eq_none_iff, List.mem_map, not_exists, not_and, bne_iff_ne]
  exact ⟨fun h p hp heq => h p hp heq.symm, fun h p hp heq => h p hp heq.symm⟩

/-- An entry under a key of its own is found. -/
theorem lookup_of_mem {κ : Type} [BEq κ] [LawfulBEq κ] {entries : List (κ × α)}
    (nodup : (entries.map (·.1)).Nodup) {p : κ × α} (h : p ∈ entries) :
    entries.lookup p.1 = some p.2 := by
  induction entries with
  | nil => cases h
  | cons q entries ih =>
    obtain ⟨hq, hrest⟩ := List.nodup_cons.mp nodup
    rcases List.mem_cons.mp h with rfl | h
    · exact List.lookup_cons_self
    · have hne : p.1 ≠ q.1 := by
        intro heq
        exact hq (List.mem_map.mpr ⟨p, h, heq⟩)
      rw [List.lookup_cons, beq_false_of_ne hne]
      exact ih hrest h

/-- Changing what stands under the names changes what is found. -/
theorem lookup_map_snd (f : α → γ) (entries : List (String × α)) (name : String) :
    (entries.map fun p => (p.1, f p.2)).lookup name = (entries.lookup name).map f := by
  induction entries with
  | nil => rfl
  | cons p entries ih =>
    rw [List.map_cons, List.lookup_cons, List.lookup_cons]
    by_cases h : name == p.1
    · simp [h]
    · simp [h, ih]

end CircuitSketch
