import CircuitSketch.Evaluation.Solve
import CircuitSketch.Proofs.Condition.Laws
import CircuitSketch.Proofs.Evaluation.Reading

/-!
# Holes as numbered decisions

The bits of the holes of a sketch are numbered in order, and symbolic evaluation works on conditions
on these numbers. An assignment of the holes and truth values of the decisions are two ways to give
the same bits, and under both a sketch evaluates to the same word.
-/
namespace CircuitSketch

theorem getElem?_ofList {α : Type} {entries : List (Hole × α)} (nodup : (entries.map (·.1)).Nodup)
    {h : Hole} {x : α} : (Std.HashMap.ofList entries)[h]? = some x ↔ (h, x) ∈ entries := by
  have hdistinct : entries.Pairwise fun a b => (a.1 == b.1) = false :=
    (List.pairwise_map.mp nodup).imp fun hne => beq_false_of_ne hne
  constructor
  · intro hx
    by_cases hmem : (entries.map (·.1)).contains h
    · simp only [List.contains_iff_mem, List.mem_map] at hmem
      obtain ⟨⟨k, y⟩, hy, rfl⟩ := hmem
      rw [Std.HashMap.getElem?_ofList_of_mem (beq_self_eq_true k) hdistinct hy] at hx
      rwa [← Option.some.inj hx]
    · rw [Bool.not_eq_true] at hmem
      rw [Std.HashMap.getElem?_ofList_of_contains_eq_false hmem] at hx
      cases hx
  · exact fun hmem => Std.HashMap.getElem?_ofList_of_mem (beq_self_eq_true h) hdistinct hmem

namespace Assignment

theorem getElem?_ofList {entries : List (Hole × HoleValue)} (nodup : (entries.map (·.1)).Nodup)
    {h : Hole} {value : HoleValue} : (ofList entries)[h]? = some value ↔ (h, value) ∈ entries :=
  CircuitSketch.getElem?_ofList nodup

/-- Every listed hole has a value. -/
def Covers (σ : Assignment) (holes : List Hole) : Prop := ∀ h ∈ holes, h ∈ σ

/-- The bits of holes under an assignment, one hole after the other. -/
def holeBits (σ : Assignment) (holes : List Hole) : List Bool :=
  holes.flatMap fun h => (σ.bits? h).getD []

/-- The truth values of the decisions that the bits of holes are numbered by. -/
def decisions (σ : Assignment) (holes : List Hole) (n : Nat) : Bool :=
  (σ.holeBits holes).getD n false

theorem exists_bits? {σ : Assignment} {h : Hole} (hσ : h ∈ σ) :
    ∃ bits, σ.bits? h = some bits ∧ bits.length = h.width := by
  obtain ⟨value, hvalue⟩ := Option.isSome_iff_exists.mp (Std.HashMap.isSome_getElem?_iff_mem.mpr hσ)
  exact ⟨Word.ofInt h.width value.toInt, by rw [bits?, hvalue]; rfl, Word.length_ofInt _ _⟩

end Assignment

namespace Solve

theorem keys_numberBits (start : Nat) (holes : List Hole) :
    (numberBits start holes).map (·.1) = holes := by
  induction holes generalizing start with
  | nil => rfl
  | cons h holes ih => rw [numberBits, List.map_cons, ih]

/-- The decisions give every listed hole the bits that the assignment gives it. -/
def Decides (holes : List Hole) (σ : Assignment) (τ : Nat → Bool) : Prop :=
  ∀ h start, (h, start) ∈ numberBits 0 holes →
    σ.bits? h = some ((List.range h.width).map fun i => τ (start + i))

/-- The bits of a hole stand at the numbers that belong to it. -/
theorem bits?_eq_of_mem_numberBits {σ : Assignment} {holes : List Hole} (hσ : σ.Covers holes)
    (before : List Bool) {h : Hole} {start : Nat}
    (hmem : (h, start) ∈ numberBits before.length holes) :
    σ.bits? h = some ((List.range h.width).map fun i =>
      (before ++ σ.holeBits holes).getD (start + i) false) := by
  induction holes generalizing before with
  | nil => simp [numberBits] at hmem
  | cons k holes ih =>
    obtain ⟨bits, hbits, hlen⟩ := Assignment.exists_bits? (hσ k (by simp))
    have hcons : σ.holeBits (k :: holes) = bits ++ σ.holeBits holes := by
      rw [Assignment.holeBits, List.flatMap_cons, hbits]
      rfl
    rw [numberBits, List.mem_cons] at hmem
    rcases hmem with heq | hmem
    · obtain ⟨rfl, rfl⟩ := Prod.mk.inj heq
      rw [hbits, hcons, Option.some.injEq]
      apply List.ext_getElem
      · simp [hlen]
      · intro i hi _
        simp [List.getD_eq_getElem?_getD, List.getElem?_append_right,
          List.getElem?_append_left hi, hi]
    · have hnext : before.length + k.width = (before ++ bits).length := by simp [hlen]
      rw [hnext] at hmem
      have hrest := ih (fun x hx => hσ x (by simp [hx])) (before ++ bits) hmem
      rw [hrest, hcons, List.append_assoc]

theorem decides_decisions {σ : Assignment} {holes : List Hole} (hσ : σ.Covers holes) :
    Decides holes σ (σ.decisions holes) :=
  fun _ _ hmem => bits?_eq_of_mem_numberBits hσ [] hmem

theorem holeBits_of_numberBits {σ : Assignment} {τ : Nat → Bool} {holes : List Hole} {start : Nat}
    (hbits : ∀ h s, (h, s) ∈ numberBits start holes →
      σ.bits? h = some ((List.range h.width).map fun i => τ (s + i))) :
    σ.holeBits holes =
      (List.range (holes.map Hole.width).sum).map fun i => τ (start + i) := by
  induction holes generalizing start with
  | nil => rfl
  | cons k holes ih =>
    have hk := hbits k start (by simp [numberBits])
    have hrest := ih fun h s hmem => hbits h s (List.mem_cons_of_mem _ hmem)
    rw [Assignment.holeBits] at hrest ⊢
    rw [List.flatMap_cons, hk, hrest, List.map_cons, List.sum_cons, List.range_add, List.map_append,
      List.map_map]
    simp [Function.comp_def, Nat.add_assoc]

/-- The numbered bits of the holes are the decisions; there are no others. -/
theorem Decides.decisions_eq {holes : List Hole} {σ : Assignment} {τ : Nat → Bool}
    (h : Decides holes σ τ) (i : Nat) :
    σ.decisions holes i = (decide (i < (holes.map Hole.width).sum) && τ i) := by
  rw [Assignment.decisions, holeBits_of_numberBits h, List.getD_eq_getElem?_getD]
  by_cases hi : i < (holes.map Hole.width).sum
  · simp [hi]
  · simp [hi]

/-- The assignment that gives the bits of holes the truth values of decisions. -/
def assignmentOf (holes : List Hole) (τ : Nat → Bool) : Assignment :=
  Assignment.ofList ((numberBits 0 holes).map fun s =>
    (s.1, .number (Word.toNat ((List.range s.1.width).map fun i => τ (s.2 + i)))))

theorem getElem?_assignmentOf {holes : List Hole} (nodup : holes.Nodup) (τ : Nat → Bool)
    {h : Hole} {start : Nat} (hmem : (h, start) ∈ numberBits 0 holes) :
    (assignmentOf holes τ)[h]? =
      some (.number (Word.toNat ((List.range h.width).map fun i => τ (start + i)))) := by
  refine (Assignment.getElem?_ofList ?_).mpr (List.mem_map.mpr ⟨(h, start), hmem, rfl⟩)
  rw [List.map_map]
  exact (keys_numberBits 0 holes).symm ▸ nodup

theorem decides_assignmentOf {holes : List Hole} (nodup : holes.Nodup) (τ : Nat → Bool) :
    Decides holes (assignmentOf holes τ) τ := by
  intro h start hmem
  have hlt := Word.toNat_lt ((List.range h.width).map fun i => τ (start + i))
  rw [List.length_map, List.length_range] at hlt
  rw [Assignment.bits?, getElem?_assignmentOf nodup τ hmem, Option.map_some, Option.some.injEq]
  apply Word.eq_of_toNat_eq
  · simp
  · rw [HoleValue.toInt, Word.toNat_ofInt_natCast, Nat.mod_eq_of_lt hlt]

theorem covers_assignmentOf {holes : List Hole} (nodup : holes.Nodup) (τ : Nat → Bool) :
    (assignmentOf holes τ).Covers holes := by
  intro h hh
  rw [← keys_numberBits 0 holes] at hh
  obtain ⟨⟨k, start⟩, hmem, rfl⟩ := List.mem_map.mp hh
  exact Std.HashMap.isSome_getElem?_iff_mem.mp (by rw [getElem?_assignmentOf nodup τ hmem]; rfl)

variable (env : Valuation) (modules : ModuleTable)

/-- Symbolically the bits of a listed hole are decisions of their own. -/
theorem exists_symbolic_decision {holes : List Hole} (nodup : holes.Nodup) {h : Hole}
    (hmem : h ∈ holes) : ∃ start, (h, start) ∈ numberBits 0 holes ∧
      (symbolic env (Std.HashMap.ofList (numberBits 0 holes)) modules).decision h =
        some ((List.range h.width).map fun i => Condition.decision (start + i)) := by
  rw [← keys_numberBits 0 holes] at nodup hmem
  obtain ⟨⟨k, start⟩, hstart, rfl⟩ := List.mem_map.mp hmem
  refine ⟨start, hstart, ?_⟩
  simp only [symbolic, (getElem?_ofList nodup).mpr hstart]
  rfl

theorem sized_symbolic (starts : Std.HashMap Hole Nat) :
    (symbolic env starts modules).Sized := by
  intro h bits hbits
  obtain ⟨start, -, rfl⟩ := Option.map_eq_some_iff.mp hbits
  simp

/-- Symbolic evaluation, read under decisions, is interpretation under an assignment that gives the
holes the same bits. -/
theorem Decides.reads {holes : List Hole} (nodup : holes.Nodup) {σ : Assignment} {τ : Nat → Bool}
    (h : Decides holes σ τ) :
    (symbolic env (Std.HashMap.ofList (numberBits 0 holes)) modules).Reads (Condition.holds τ)
      (.concrete env σ modules) where
  input := rfl
  modules := rfl
  decision := by
    intro k bits hbits
    obtain ⟨start, hstart, rfl⟩ := Option.map_eq_some_iff.mp hbits
    have hkeys : ((numberBits 0 holes).map (·.1)).Nodup := by rwa [keys_numberBits]
    have hσ := h k start ((getElem?_ofList hkeys).mp hstart)
    simp [Context.concrete, hσ, Function.comp_def, Condition.laws.holds_decision]

end Solve
end CircuitSketch
