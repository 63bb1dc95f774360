import CircuitSketch.Proofs.Interface.Lut

/-!
# Programming a table

An assignment programs a table with a function when it gives every entry the value that the function
has for the inputs of that entry. A complete table that is programmed so is read as the function.
-/
namespace CircuitSketch

namespace LutProgram

variable {l : LutProgram} {f : List Bool → Bool}

/-- The values that a function asks for when it has one for all inputs. -/
theorem wanted_total (l : LutProgram) (f : List Bool → Bool) :
    l.wanted (fun bits => some (f bits)) =
      some (l.table.zipIdx.map fun entry => (entry.1, f (l.inputsAt entry.2))) := by
  rw [wanted]
  exact List.mapM_pure

/-- No hole is asked for two values when every entry has a hole of its own. -/
theorem compute_total (nodup : l.table.Nodup) :
    l.compute (fun bits => some (f bits)) =
      some (l.table.zipIdx.map fun entry => (entry.1, f (l.inputsAt entry.2))) := by
  rw [compute, wanted_total, Option.map_some, Option.some.injEq]
  refine (List.map_congr_left fun e he => ?_).trans (List.map_id _)
  have hnodup : ((l.table.zipIdx.map fun entry =>
      (entry.1, f (l.inputsAt entry.2))).reverse.map (·.1)).Nodup := by
    rw [List.map_reverse, List.nodup_reverse, List.map_map]
    exact (List.zipIdx_map_fst 0 l.table).symm ▸ nodup
  rw [lookup_of_mem hnodup (List.mem_reverse.mpr he), Option.getD_some, id]

/-- The inputs of the entry that inputs spell are these inputs. -/
theorem inputsAt_toNat {bits : List Bool} (h : (bits.length : Int) = l.inputs) :
    l.inputsAt (Word.toNat bits) = bits := by
  have hlen : l.inputs.toNat = bits.length := by omega
  refine Word.eq_of_toNat_eq (by simp [inputsAt, hlen]) ?_
  rw [inputsAt, hlen, Word.toNat_ofNat]
  exact Nat.mod_eq_of_lt (Word.toNat_lt bits)

end LutProgram

namespace Assignment

variable {σ : Assignment} {l : LutProgram} {f : List Bool → Bool}

/-- The values that make a table compute a function are those of the assignment. -/
def Programs (σ : Assignment) (l : LutProgram) (f : List Bool → Bool) : Prop :=
  ∃ values, l.compute (fun bits => some (f bits)) = some values ∧
    ∀ v ∈ values, σ[v.1]? = some (.number v.2.toNat)

theorem truth_of_number {h : Hole} {b : Bool} (value : σ[h]? = some (.number b.toNat)) :
    σ.truth h = b := by
  rw [truth, number, value]
  cases b <;> rfl

section Truth

variable {holes : List Hole} {τ : Hole → Bool}

/-- The assignment that gives holes their truth values as numbers. -/
def ofTruth (holes : List Hole) (τ : Hole → Bool) : Assignment :=
  ofList (holes.eraseDups.map fun h => (h, .number (τ h).toNat))

theorem getElem?_ofTruth {h : Hole} (mem : h ∈ holes) :
    (ofTruth holes τ)[h]? = some (.number (τ h).toNat) := by
  refine (getElem?_ofList ?_).mpr (List.mem_map.mpr ⟨h, List.mem_eraseDups.mpr mem, rfl⟩)
  rw [List.map_map]
  simpa [Function.comp_def] using nodup_eraseDups holes

theorem truth_ofTruth {h : Hole} (mem : h ∈ holes) : (ofTruth holes τ).truth h = τ h :=
  truth_of_number (getElem?_ofTruth mem)

theorem covers_ofTruth {hs : List Hole} (sub : hs ⊆ holes) : (ofTruth holes τ).Covers hs :=
  fun _ hh => Std.HashMap.isSome_getElem?_iff_mem.mp (by rw [getElem?_ofTruth (sub hh)]; rfl)

end Truth

/-- Truth values that are those of a function at every entry of a table program it. -/
theorem programs_ofTruth {holes : List Hole} {τ : Hole → Bool} (nodup : l.table.Nodup)
    (sub : l.table ⊆ holes)
    (entries : ∀ entry ∈ l.table.zipIdx, τ entry.1 = f (l.inputsAt entry.2)) :
    (ofTruth holes τ).Programs l f := by
  refine ⟨_, LutProgram.compute_total nodup, fun v hv => ?_⟩
  obtain ⟨entry, hentry, rfl⟩ := List.mem_map.mp hv
  have hmem : entry.1 ∈ l.table := List.mem_of_getElem? (List.mem_zipIdx_iff_getElem?.mp hentry)
  rw [getElem?_ofTruth (sub hmem), entries entry hentry]

/-- A complete table can be programmed with any function. -/
theorem exists_programs (hl : l.Complete) (f : List Bool → Bool) :
    ∃ σ : Assignment, σ.Programs l f := by
  refine ⟨ofTruth l.table fun h => f (l.inputsAt (l.table.idxOf h)),
    programs_ofTruth hl.nodup (List.Subset.refl _) fun entry hentry => ?_⟩
  obtain ⟨hi, hget⟩ := List.getElem?_eq_some_iff.mp (List.mem_zipIdx_iff_getElem?.mp hentry)
  rw [← hget, hl.nodup.idxOf_getElem]

/-- A table that is programmed has a value for every entry. -/
theorem Programs.covers (nodup : l.table.Nodup) (h : σ.Programs l f) : σ.Covers l.table := by
  obtain ⟨values, hvalues, hσ⟩ := h
  rw [LutProgram.compute_total nodup, Option.some.injEq] at hvalues
  subst hvalues
  intro k hk
  obtain ⟨i, hi⟩ := List.mem_iff_getElem?.mp hk
  have hmem : (k, i) ∈ l.table.zipIdx := List.mem_zipIdx_iff_getElem?.mpr hi
  have hentry := hσ _ (List.mem_map_of_mem hmem)
  exact Std.HashMap.isSome_getElem?_iff_mem.mp (by rw [hentry]; rfl)

/-- A table that is programmed with a function computes it. -/
theorem Programs.computes (hl : l.Complete) (h : σ.Programs l f) : l.Computes σ.truth f := by
  obtain ⟨values, hvalues, hσ⟩ := h
  rw [LutProgram.compute_total hl.nodup, Option.some.injEq] at hvalues
  subst hvalues
  intro bits hbits
  obtain ⟨k, hk, hread⟩ := hl.exists_entry hbits
  have hmem : (k, Word.toNat bits) ∈ l.table.zipIdx := List.mem_zipIdx_iff_getElem?.mpr hk
  have hentry := hσ _ (List.mem_map_of_mem hmem)
  rw [LutProgram.inputsAt_toNat hbits] at hentry
  rw [hread]
  exact truth_of_number hentry

end Assignment
end CircuitSketch
