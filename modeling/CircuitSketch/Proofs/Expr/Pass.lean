import CircuitSketch.Expr.Pass
import Mathlib.Data.List.Forall2

/-!
# What a pass finds

A recursive reading gives a node its result from the results of its children. A pass that treats
every single node the way the reading does finds what the reading gives. Two facts hold all the way:
every result in the table is the one that the reading gives; and whichever waiting node is the first
at which the reading fails, it fails for the same cause at the node that the pass began with.
-/
namespace CircuitSketch

variable {ε ρ : Type}

namespace Results

/-- Every result is the one that a reading gives. -/
def Sound (t : Results ρ) (spec : Expr → Except ε ρ) : Prop :=
  ∀ {e x}, t[e]? = some x → spec e = .ok x

variable {t : Results ρ} {spec : Expr → Except ε ρ}

theorem sound_empty : Sound (∅ : Results ρ) spec := by simp [Sound]

theorem Sound.exists_ok (h : t.Sound spec) {e : Expr} (he : e ∈ t) : ∃ x, spec e = .ok x :=
  ⟨t[e], h (Std.HashMap.getElem?_eq_some_getElem he)⟩

/-- Results that are all there can be read together, and they are what the reading gives. -/
theorem Sound.exists_readAll (h : t.Sound spec) {es : List Expr} (hes : ∀ e ∈ es, e ∈ t) :
    ∃ xs, t.readAll es = (.ok xs : Except (Stop ε) (List ρ)) ∧
      List.Forall₂ (fun e x => spec e = .ok x) es xs := by
  induction es with
  | nil => exact ⟨[], rfl, .nil⟩
  | cons e es ih =>
    obtain ⟨x, hx, hread⟩ := exists_read (ε := ε) (hes e List.mem_cons_self)
    obtain ⟨xs, hreads, hxs⟩ := ih fun d hd => hes d (List.mem_cons_of_mem e hd)
    refine ⟨x :: xs, ?_, .cons (h hx) hxs⟩
    rw [readAll, hread, hreads]
    rfl

theorem Sound.insert (h : t.Sound spec) {e : Expr} {x : ρ} (hx : spec e = .ok x) :
    Sound (Std.HashMap.insert t e x) spec := by
  intro d y hy
  rw [Std.HashMap.getElem?_insert] at hy
  split at hy
  next hd =>
    cases hy
    exact eq_of_beq hd ▸ hx
  next => exact h hy

end Results

/-- Whichever of the nodes is the first at which a reading fails, it fails for the same cause at
`e`. -/
def Blames (spec : Expr → Except ε ρ) (e : Expr) : List Expr → Prop
  | [] => True
  | d :: ds => (∀ err, spec d = .error err → spec e = .error err) ∧
      ((∃ x, spec d = .ok x) → Blames spec e ds)

namespace Blames

variable {spec : Expr → Except ε ρ} {e : Expr}

theorem append {ds es : List Expr} (h : Blames spec e ds)
    (hes : (∀ d ∈ ds, ∃ x, spec d = .ok x) → Blames spec e es) : Blames spec e (ds ++ es) := by
  induction ds with
  | nil => exact hes (by simp)
  | cons d ds ih =>
    refine ⟨h.1, fun hd => ih (h.2 hd) fun hds => hes ?_⟩
    rintro x (_ | ⟨_, hx⟩)
    · exact hd
    · exact hds x hx

/-- Nodes at which the reading does not fail can be left out. -/
theorem missing {t : Results ρ} (sound : t.Sound spec) {ds : List Expr} (h : Blames spec e ds) :
    Blames spec e (t.missing ds) := by
  induction ds with
  | nil => trivial
  | cons d ds ih =>
    by_cases hd : d ∈ t
    · have hmissing : t.missing (d :: ds) = t.missing ds :=
        List.filter_cons_of_neg (by simpa using hd)
      rw [hmissing]
      exact ih (h.2 (sound.exists_ok hd))
    · have hmissing : t.missing (d :: ds) = d :: t.missing ds :=
        List.filter_cons_of_pos (by simpa using hd)
      rw [hmissing]
      exact ⟨h.1, fun hok => ih (h.2 hok)⟩

/-- What fails before `e` makes `e` fail, and so whatever `e` makes fail. -/
theorem push {root : Expr} {ds rest : List Expr} (h : Blames spec e ds)
    (he : Blames spec root (e :: rest)) : Blames spec root (ds ++ e :: rest) := by
  induction ds with
  | nil => exact he
  | cons d ds ih => exact ⟨fun err herr => he.1 err (h.1 err herr), fun hd => ih (h.2 hd)⟩

end Blames

namespace Pass

/-- A pass treats every node the way a reading does, as long as its table is sound: what it needs
fails no later than the node, and with all that it needs it works out what the reading gives. -/
structure Follows (p : Pass ε ρ) (spec : Expr → Except ε ρ) : Prop where
  needs_error : ∀ {t e err}, Results.Sound t spec → p.needs t e = .error err → spec e = .error err
  blames : ∀ {t e es}, Results.Sound t spec → p.needs t e = .ok es → Blames spec e (p.order es)
  finish : ∀ {t e es}, Results.Sound t spec → p.needs t e = .ok es → (∀ d ∈ es, d ∈ t) →
    p.finish t e = (spec e).mapError .failed

/-- A pass over `root` is on the track of a reading. -/
structure Tracks (spec : Expr → Except ε ρ) (root : Expr) (s : State ρ) : Prop where
  sound : Results.Sound s.results spec
  blames : Blames spec root s.stack

variable {p : Pass ε ρ} {spec : Expr → Except ε ρ} {root : Expr} {s s' : State ρ}

theorem tracks_start {t : Results ρ} (h : t.Sound spec) : Tracks spec root ⟨[root], t⟩ where
  sound := h
  blames := ⟨fun _ herr => herr, fun _ => trivial⟩

theorem order_missing (p : Pass ε ρ) (t : Results ρ) (es : List Expr) :
    p.order (t.missing es) = t.missing (p.order es) := by
  unfold order
  split
  · exact List.filter_reverse.symm
  · rfl

theorem eq_ok_of_mapError_eq_ok {α : Type} {r : Except ε α} {x : α}
    (h : r.mapError Stop.failed = .ok x) : r = .ok x := by
  cases r with
  | error err => cases h
  | ok y => cases h; rfl

theorem eq_error_of_mapError_eq_error {α : Type} {r : Except ε α} {err : ε}
    (h : r.mapError Stop.failed = .error (.failed err)) : r = .error err := by
  cases r with
  | error err => cases h; rfl
  | ok y => cases h

/-- One step keeps a pass on the track. -/
theorem Follows.move (f : p.Follows spec) (h : Tracks spec root s) (hmove : Move p s s') :
    Tracks spec root s' := by
  obtain ⟨sound, blames⟩ := h
  cases hmove with
  | drop old => exact ⟨sound, blames.2 (sound.exists_ok old)⟩
  | @push e rest t es new needs pending =>
    refine ⟨sound, Blames.push ?_ blames⟩
    rw [order_missing]
    exact (f.blames sound needs).missing sound
  | @finish e rest t x due result =>
    obtain ⟨es, needs, ready⟩ := due.needs
    rw [f.finish sound needs ready] at result
    have hx : spec e = .ok x := eq_ok_of_mapError_eq_ok result
    exact ⟨sound.insert hx, blames.2 ⟨x, hx⟩⟩

/-- A pass that stops short does so for the cause for which the reading fails. -/
theorem Follows.stopped (f : p.Follows spec) (h : Tracks spec root s) {err : ε}
    (hstep : p.step s = .stopped (.failed err)) : spec root = .error err := by
  obtain ⟨e, rest, hstack, -, hcause⟩ := of_step_eq_stopped hstep
  have blames := h.blames
  rw [hstack] at blames
  refine blames.1 err ?_
  rcases hcause with ⟨cause, hneeds, hcause⟩ | ⟨due, hfinish⟩
  · cases hcause
    exact f.needs_error h.sound hneeds
  · obtain ⟨es, needs, ready⟩ := due.needs
    rw [f.finish h.sound needs ready] at hfinish
    exact eq_error_of_mapError_eq_error hfinish

/-- A pass on the track of a reading finds what the reading gives. -/
theorem Follows.run_eq (f : p.Follows spec) {ready : p.Ready} {hs : Underway root s}
    (h : Tracks spec root s) : p.run ready root s hs = spec root := by
  fun_induction run p ready root s hs with
  | case1 s hs hstep =>
    exact (h.sound (Std.HashMap.getElem?_eq_some_getElem _)).symm
  | case2 s hs cause hstep => exact (f.stopped h hstep).symm
  | case3 s hs s' hstep ih => exact ih (f.move h (step_eq_next.mp hstep))

theorem Follows.resume_eq (f : p.Follows spec) (ready : p.Ready) {t : Results ρ}
    (h : t.Sound spec) (e : Expr) : p.resume ready t e = spec e :=
  f.run_eq (tracks_start h)

end Pass
end CircuitSketch
