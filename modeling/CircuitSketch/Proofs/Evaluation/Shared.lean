import CircuitSketch.Evaluation.Shared
import CircuitSketch.Proofs.Expr.Pass

/-!
# Evaluation by a pass

The pass that finds values treats a node the way the recursive evaluation does, so an expression has
one value however it is evaluated. In particular the error is the same when several parts of an
expression have no value.
-/
namespace CircuitSketch.Expr

variable {β : Type} [BitAlgebra β] {c : Context β} {t : Results (Value β)}

/-- A selector with a value in the table settles a choice by the first bit of that value. -/
theorem selectorBit_of_sound (sound : t.Sound (eval c)) {s : Hole} {selector : Value β}
    (h : t[hole s]? = some selector) : selectorBit c s = selector.firstBit := by
  have heval := sound h
  rw [eval] at heval
  rw [selectorBit]
  split at heval
  next bits hbits =>
    cases heval
    rw [hbits]
    cases bits <;> rfl
  · cases heval

theorem evalAll_eq_ok {es : List Expr} {vs : List (Value β)} :
    evalAll c es = .ok vs ↔ List.Forall₂ (fun e v => eval c e = .ok v) es vs := by
  induction es generalizing vs with
  | nil =>
    rw [List.forall₂_nil_left_iff, evalAll, Except.ok.injEq]
    exact eq_comm
  | cons e es ih =>
    rw [List.forall₂_cons_left_iff, evalAll]
    constructor
    · intro h
      split at h
      · cases h
      · next rest hrest =>
        split at h
        · cases h
        · next v hv => exact ⟨v, rest, hv, ih.mp hrest, (Except.ok.inj h).symm⟩
    · rintro ⟨v, rest, hv, hrest, rfl⟩
      rw [ih.mpr hrest]
      simp [hv]

theorem exists_evalAll_iff {args : List Expr} :
    (∃ values, evalAll c args = .ok values) ↔ ∀ a ∈ args, ∃ v, eval c a = .ok v := by
  simp only [evalAll_eq_ok]
  induction args with
  | nil => simp
  | cons a args ih => simp [List.forall₂_cons_left_iff, ih]

/-- The last of several expressions without a value is the one for which they have none. -/
theorem blames_reverse {e : Expr} {args : List Expr}
    (h : ∀ err, evalAll c args = .error err → eval c e = .error err) :
    Blames (eval c) e args.reverse := by
  induction args with
  | nil => trivial
  | cons a args ih =>
    rw [List.reverse_cons]
    have hrest : Blames (eval c) e args.reverse := ih fun err herr => h err (by rw [evalAll, herr])
    refine hrest.append fun hargs => ⟨fun err herr => h err ?_, fun _ => trivial⟩
    obtain ⟨values, hvalues⟩ :=
      exists_evalAll_iff.mpr fun d hd => hargs d (List.mem_reverse.mpr hd)
    rw [evalAll, hvalues, herr]

/-- A choice has no value for the cause for which its selector has none, and then for the cause for
which a side that is called for has none. -/
theorem blames_sides {s : Hole} {bit : β} (hbit : selectorBit c s = .ok bit) (tag w : Nat)
    (a b : Expr) : Blames (eval c) (choose tag w a b s) (sides bit a b).reverse := by
  unfold sides
  cases hconst : BitAlgebra.constant? bit with
  | some chosen =>
    cases chosen <;> exact ⟨fun err herr => by simp [eval, hbit, hconst, herr], fun _ => trivial⟩
  | none =>
    refine ⟨fun err herr => by simp [eval, hbit, hconst, herr], fun ⟨y, hy⟩ => ⟨fun err herr => ?_,
      fun _ => trivial⟩⟩
    simp [eval, hbit, hconst, hy, herr]

theorem blames_selector (c : Context β) (tag w : Nat) (a b : Expr) (s : Hole) :
    Blames (eval c) (choose tag w a b s) [hole s] := by
  refine ⟨fun err herr => ?_, fun _ => trivial⟩
  rw [eval] at herr
  split at herr
  · cases herr
  next hnone =>
    cases herr
    simp [eval, selectorBit, hnone]

theorem chosenValue_eq (sound : t.Sound (eval c)) {s : Hole} {bit : β}
    (hbit : selectorBit c s = .ok bit) {a b : Expr} (h : ∀ d ∈ sides bit a b, d ∈ t)
    (tag w : Nat) : chosenValue t bit a b = (eval c (choose tag w a b s)).mapError .failed := by
  have read {d : Expr} (hd : d ∈ sides bit a b) :
      ∃ v, t.read d = (.ok v : Except (Stop EvalError) _) ∧ eval c d = .ok v := by
    obtain ⟨v, hv, hread⟩ := Results.exists_read (ε := EvalError) (h d hd)
    exact ⟨v, hread, sound hv⟩
  unfold sides at read
  rw [chosenValue, eval, hbit]
  cases hconst : BitAlgebra.constant? bit with
  | none =>
    obtain ⟨x, hx, hvx⟩ := @read a (by simp [hconst])
    obtain ⟨y, hy, hvy⟩ := @read b (by simp [hconst])
    simp only [hconst, hx, hy, hvx, hvy]
    rfl
  | some chosen =>
    cases chosen with
    | false =>
      obtain ⟨x, hx, hvx⟩ := @read a (by simp [hconst])
      simp only [hconst, hx, hvx]
      rfl
    | true =>
      obtain ⟨y, hy, hvy⟩ := @read b (by simp [hconst])
      simp only [hconst, hy, hvy]
      rfl

theorem evaluation_follows (c : Context β) : (evaluation c).Follows (eval c) where
  needs_error := by
    intro t e err sound hneeds
    replace hneeds : needsForValue t e = .error err := hneeds
    cases e with
    | hole h => cases hneeds
    | node tag op s args => cases hneeds
    | choose tag w a b s =>
      rw [needsForValue] at hneeds
      split at hneeds
      · cases hneeds
      next selector hselector =>
        have hbit := selectorBit_of_sound sound hselector
        cases hfirst : selector.firstBit with
        | ok bit => rw [hfirst] at hneeds; cases hneeds
        | error err' =>
          rw [hfirst] at hneeds hbit
          cases hneeds
          simp [eval, hbit]
  blames := by
    intro t e es sound hneeds
    change Blames (eval c) e es.reverse
    replace hneeds : needsForValue t e = .ok es := hneeds
    cases e with
    | hole h =>
      cases hneeds
      trivial
    | node tag op s args =>
      cases hneeds
      exact blames_reverse fun err herr => by rw [eval, herr]
    | choose tag w a b s =>
      obtain ⟨-, rfl⟩ | ⟨selector, bit, hselector, hbit, rfl⟩ := of_needsForValue_choose hneeds
      · exact blames_selector c tag w a b s
      · exact blames_sides ((selectorBit_of_sound sound hselector).trans hbit) tag w a b
  finish := by
    intro t e es sound hneeds ready
    change valueFrom c t e = _
    replace hneeds : needsForValue t e = .ok es := hneeds
    cases e with
    | hole h =>
      rw [valueFrom, eval]
      cases c.decision h <;> rfl
    | node tag op s args =>
      cases hneeds
      obtain ⟨values, hread, hvalues⟩ := sound.exists_readAll ready
      rw [valueFrom, eval, hread, evalAll_eq_ok.mpr hvalues]
      rfl
    | choose tag w a b s =>
      obtain ⟨hnew, rfl⟩ | ⟨selector, bit, hselector, hbit, rfl⟩ := of_needsForValue_choose hneeds
      · exact absurd (ready _ List.mem_cons_self) hnew
      · rw [valueFrom_choose hselector hbit]
        exact chosenValue_eq sound ((selectorBit_of_sound sound hselector).trans hbit) ready tag w

theorem evaluate_eq_eval (c : Context β) (e : Expr) : evaluate c e = eval c e :=
  (evaluation_follows c).resume_eq (evaluation_ready c) Results.sound_empty e

end CircuitSketch.Expr
