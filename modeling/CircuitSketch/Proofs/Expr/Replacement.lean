import CircuitSketch.Expr.Substitute
import CircuitSketch.Proofs.Expr.Pass

/-!
# Substitution by a pass

The pass that finds replacements treats a node the way the recursive replacement does. A choice
whose selector is settled stands for its chosen side; any other is replaced after its sides, and
under a strict substitution its selector then has no value.
-/
namespace CircuitSketch.Expr

variable {r : Substitution} {t : Results Expr}

theorem replaceAll_eq_ok {es xs : List Expr} :
    replaceAll r es = .ok xs ↔ List.Forall₂ (fun e x => replace r e = .ok x) es xs := by
  induction es generalizing xs with
  | nil =>
    rw [List.forall₂_nil_left_iff, replaceAll, Except.ok.injEq]
    exact eq_comm
  | cons e es ih =>
    rw [List.forall₂_cons_left_iff, replaceAll]
    constructor
    · intro h
      split at h
      · cases h
      · next x hx =>
        split at h
        · cases h
        · next rest hrest => exact ⟨x, rest, hx, ih.mp hrest, (Except.ok.inj h).symm⟩
    · rintro ⟨x, rest, hx, hrest, rfl⟩
      rw [hx]
      simp [ih.mpr hrest]

/-- The first of several expressions without a replacement is the one for which they have none. -/
theorem blames_args {e : Expr} {args : List Expr}
    (h : ∀ err, replaceAll r args = .error err → replace r e = .error err) :
    Blames (replace r) e args := by
  induction args with
  | nil => trivial
  | cons a args ih =>
    refine ⟨fun err herr => h err (by rw [replaceAll, herr]), fun ⟨x, hx⟩ => ih fun err herr => ?_⟩
    exact h err (by rw [replaceAll, hx, herr])

/-- An unsettled choice has no replacement for the cause for which a side has none, and then for the
cause for which its selector has none. -/
theorem blames_unsettled {s : Hole} (hs : r.assignment[s]? = none) (tag w : Nat) (a b : Expr) :
    Blames (replace r) (choose tag w a b s) [a, b, hole s] := by
  refine ⟨fun err herr => by simp [replace, hs, herr], fun ⟨x, hx⟩ =>
    ⟨fun err herr => by simp [replace, hs, hx, herr], fun ⟨y, hy⟩ => ⟨fun err herr => ?_,
      fun _ => trivial⟩⟩⟩
  simp only [replace, replaceHole, hs] at herr
  split at herr
  next hstrict =>
    cases herr
    simp [replace, hs, hx, hy, hstrict]
  · cases herr

theorem replacementFrom_unsettled (sound : t.Sound (replace r)) {s : Hole}
    (hs : r.assignment[s]? = none) {a b : Expr} (h : ∀ d ∈ [a, b, hole s], d ∈ t) (tag w : Nat) :
    replacementFrom r t (choose tag w a b s) =
      (replace r (choose tag w a b s)).mapError .failed := by
  obtain ⟨x, hx, hreadx⟩ := Results.exists_read (ε := SubstError) (h a (by simp))
  obtain ⟨y, hy, hready⟩ := Results.exists_read (ε := SubstError) (h b (by simp))
  obtain ⟨z, hz, hreadz⟩ := Results.exists_read (ε := SubstError) (h (hole s) (by simp))
  have hopen := sound hz
  simp only [replace, replaceHole, hs] at hopen
  split at hopen
  · cases hopen
  next hstrict =>
    simp only [replacementFrom, replace, hs, hreadx, hready, hreadz, sound hx, sound hy, hstrict]
    rfl

theorem replace_of_settled {s : Hole} {value : HoleValue} {settled : Nat × Nat}
    (hvalue : r.assignment[s]? = some value) (hsettled : value.settle r.base s = .ok settled)
    (tag w : Nat) (a b : Expr) :
    replace r (choose tag w a b s) = replace r (if settled.2 = 0 then a else b) := by
  simp only [replace, hvalue, hsettled]
  split <;> rfl

theorem substitution_follows (r : Substitution) : (substitution r).Follows (replace r) where
  needs_error := by
    intro t e err sound hneeds
    replace hneeds : needsForReplacement r e = .error err := hneeds
    cases e with
    | hole h => cases hneeds
    | node tag op s args => cases hneeds
    | choose tag w a b s =>
      rw [needsForReplacement] at hneeds
      split at hneeds
      next value hvalue =>
        cases hsettled : value.settle r.base s with
        | ok settled => rw [hsettled] at hneeds; cases hneeds
        | error err' =>
          rw [hsettled] at hneeds
          cases hneeds
          simp [replace, hvalue, hsettled]
      · cases hneeds
  blames := by
    intro t e es sound hneeds
    change Blames (replace r) e es
    replace hneeds : needsForReplacement r e = .ok es := hneeds
    cases e with
    | hole h =>
      cases hneeds
      trivial
    | node tag op s args =>
      cases hneeds
      exact blames_args fun err herr => by rw [replace, herr]
    | choose tag w a b s =>
      obtain ⟨value, settled, hvalue, hsettled, rfl⟩ | ⟨hnone, rfl⟩ :=
        of_needsForReplacement_choose hneeds
      · have hchosen := replace_of_settled hvalue hsettled tag w a b
        exact ⟨fun err herr => hchosen.trans herr, fun _ => trivial⟩
      · exact blames_unsettled hnone tag w a b
  finish := by
    intro t e es sound hneeds ready
    change replacementFrom r t e = _
    replace hneeds : needsForReplacement r e = .ok es := hneeds
    cases e with
    | hole h => rw [replacementFrom, replace]
    | node tag op s args =>
      cases hneeds
      obtain ⟨new, hread, hnew⟩ := sound.exists_readAll ready
      rw [replacementFrom, replace, hread, replaceAll_eq_ok.mpr hnew]
      rfl
    | choose tag w a b s =>
      obtain ⟨value, settled, hvalue, hsettled, rfl⟩ | ⟨hnone, rfl⟩ :=
        of_needsForReplacement_choose hneeds
      · obtain ⟨x, hx, hread⟩ := Results.exists_read (ε := SubstError) (ready _ List.mem_cons_self)
        rw [replace_of_settled hvalue hsettled, sound hx]
        simp only [replacementFrom, hvalue, hsettled]
        exact hread
      · exact replacementFrom_unsettled sound hnone ready tag w

theorem substitute_eq_replace (e : Expr) (assignment : Assignment) (strict : Bool) (next : Nat) :
    substitute e assignment strict next =
      (replace ⟨assignment, strict, next⟩ e).map fun x => (x, next + next) := by
  have hpass := (substitution_follows ⟨assignment, strict, next⟩).resume_eq
    (substitution_ready ⟨assignment, strict, next⟩) Results.sound_empty e
  unfold substitute
  simp only [hpass]
  cases replace ⟨assignment, strict, next⟩ e <;> rfl

end CircuitSketch.Expr
