import CircuitSketch.Expr.Walk
import Std.Data.HashMap

/-!
# Passes over shared nodes

A pass finds a result for a node without recursion. It has a table of the results found so far and a
stack of the nodes that wait for one. If the node on top has a result by now, it is dropped. If not,
the pass tells which results it needs first: those that are missing are put on top of it, and if
none is missing the result of the node is worked out from the table and entered there. What a node
needs may change as the table grows, so it is asked for each time the node comes back to the top.

A pass ends on every expression. Only children are put on top of a node, so all that waits is part
of the expression that the pass began with. Each result leaves one node less without a result; and
until the next one is found, nodes on top with a result only make the stack shorter, and a node
without one only makes room for smaller nodes without one.
-/
namespace CircuitSketch

/-- Results of nodes. -/
abbrev Results (ρ : Type) := Std.HashMap Expr ρ

/-- Why a pass stops short: for a cause of its own, or because it reads the result of a node that
has none. -/
inductive Stop (ε : Type)
  | failed (cause : ε)
  | unready (e : Expr)

theorem Stop.mapError_failed_ne_unready {ε α : Type} (x : Except ε α) (d : Expr) :
    x.mapError Stop.failed ≠ .error (.unready d) := by
  intro h
  cases x with
  | error err => cases h
  | ok y => cases h

namespace Results

variable {ε ρ : Type}

/-- The result of a node, which has to be there. -/
def read (t : Results ρ) (e : Expr) : Except (Stop ε) ρ :=
  match t[e]? with
  | some x => .ok x
  | none => .error (.unready e)

/-- The results of several nodes, which have to be there. -/
def readAll (t : Results ρ) : List Expr → Except (Stop ε) (List ρ)
  | [] => .ok []
  | e :: rest => do
    let x ← t.read e
    let xs ← t.readAll rest
    .ok (x :: xs)

theorem read_eq_ok {t : Results ρ} {e : Expr} {x : ρ} (h : t[e]? = some x) :
    t.read e = (.ok x : Except (Stop ε) ρ) := by
  rw [read, h]

theorem exists_read {t : Results ρ} {e : Expr} (h : e ∈ t) :
    ∃ x, t[e]? = some x ∧ t.read e = (.ok x : Except (Stop ε) ρ) :=
  ⟨t[e], Std.HashMap.getElem?_eq_some_getElem h, read_eq_ok (Std.HashMap.getElem?_eq_some_getElem h)⟩

theorem exists_readAll {t : Results ρ} {es : List Expr} (h : ∀ e ∈ es, e ∈ t) :
    ∃ xs, t.readAll es = (.ok xs : Except (Stop ε) (List ρ)) := by
  induction es with
  | nil => exact ⟨[], rfl⟩
  | cons e es ih =>
    obtain ⟨x, -, hx⟩ := exists_read (ε := ε) (h e List.mem_cons_self)
    obtain ⟨xs, hxs⟩ := ih fun d hd => h d (List.mem_cons_of_mem e hd)
    refine ⟨x :: xs, ?_⟩
    rw [readAll, hx, hxs]
    rfl

/-- The nodes of a list that have no result. -/
def missing (t : Results ρ) (es : List Expr) : List Expr := es.filter fun e => !t.contains e

theorem mem_missing {t : Results ρ} {es : List Expr} {e : Expr} :
    e ∈ t.missing es ↔ e ∈ es ∧ e ∉ t := by
  simp [missing]

theorem missing_eq_nil {t : Results ρ} {es : List Expr} : t.missing es = [] ↔ ∀ e ∈ es, e ∈ t := by
  simp [missing]

end Results

/-- A way of finding results for nodes.

* `needs` lists the children of a node whose results come first, as far as the results that are
  there tell;
* `finish` works out the result of a node from the results that are there;
* `lastFirst` says from which end of the list the needed children are taken up. -/
structure Pass (ε ρ : Type) where
  needs : Results ρ → Expr → Except ε (List Expr)
  finish : Results ρ → Expr → Except (Stop ε) ρ
  lastFirst : Bool
  needs_sublist : ∀ {t e es}, needs t e = .ok es → es.Sublist e.children

namespace Pass

variable {ε ρ : Type}

/-- The nodes that wait for a result, the one on top first, and the results found so far. -/
structure State (ρ : Type) where
  stack : List Expr
  results : Results ρ

/-- What one step makes of a state. -/
inductive Step (ε ρ : Type)
  | done
  | stopped (stop : Stop ε)
  | next (s : State ρ)

/-- Needed nodes in the order in which they are taken up. -/
def order (p : Pass ε ρ) (es : List Expr) : List Expr := if p.lastFirst then es.reverse else es

/-- One step of a pass. -/
def step (p : Pass ε ρ) (s : State ρ) : Step ε ρ :=
  match s.stack with
  | [] => .done
  | e :: rest =>
    if s.results.contains e then .next ⟨rest, s.results⟩
    else
      match p.needs s.results e with
      | .error cause => .stopped (.failed cause)
      | .ok es =>
        match s.results.missing es with
        | [] =>
          match p.finish s.results e with
          | .error stop => .stopped stop
          | .ok x => .next ⟨rest, s.results.insert e x⟩
        | d :: ds => .next ⟨p.order (d :: ds) ++ e :: rest, s.results⟩

/-- Whatever a pass reads is there by the time when it works out a result. -/
def Ready (p : Pass ε ρ) : Prop :=
  ∀ t e es, p.needs t e = .ok es → (∀ d ∈ es, d ∈ t) → ∀ d, p.finish t e ≠ .error (.unready d)

/-- The result of the node on top of the stack is to be worked out: it has none, and all that it
needs has one. -/
structure Due (p : Pass ε ρ) (s : State ρ) (e : Expr) : Prop where
  top : s.stack.head? = some e
  new : e ∉ s.results
  needs : ∃ es, p.needs s.results e = .ok es ∧ ∀ d ∈ es, d ∈ s.results

@[simp] theorem mem_order {p : Pass ε ρ} {es : List Expr} {d : Expr} :
    d ∈ p.order es ↔ d ∈ es := by
  unfold order
  split <;> simp

@[simp] theorem length_order {p : Pass ε ρ} {es : List Expr} :
    (p.order es).length = es.length := by
  unfold order
  split <;> simp

@[simp] theorem order_eq_nil {p : Pass ε ρ} {es : List Expr} : p.order es = [] ↔ es = [] := by
  unfold order
  split <;> simp

/-- The steps that lead on: a node is dropped, makes room for what it needs, or gets its result. -/
inductive Move (p : Pass ε ρ) : State ρ → State ρ → Prop
  | drop {e : Expr} {rest : List Expr} {t : Results ρ} (old : e ∈ t) :
      Move p ⟨e :: rest, t⟩ ⟨rest, t⟩
  | push {e : Expr} {rest : List Expr} {t : Results ρ} {es : List Expr} (new : e ∉ t)
      (needs : p.needs t e = .ok es) (pending : t.missing es ≠ []) :
      Move p ⟨e :: rest, t⟩ ⟨p.order (t.missing es) ++ e :: rest, t⟩
  | finish {e : Expr} {rest : List Expr} {t : Results ρ} {x : ρ} (due : p.Due ⟨e :: rest, t⟩ e)
      (result : p.finish t e = .ok x) :
      Move p ⟨e :: rest, t⟩ ⟨rest, t.insert e x⟩

/-- A step leads on exactly by one of the three moves. -/
theorem step_eq_next {p : Pass ε ρ} {s s' : State ρ} : p.step s = .next s' ↔ Move p s s' := by
  constructor
  · intro h
    obtain ⟨stack, t⟩ := s
    unfold step at h
    split at h
    · cases h
    next e rest hstack =>
      cases hstack
      split at h
      next old =>
        cases h
        exact .drop (Std.HashMap.mem_iff_contains.mpr old)
      next new =>
        split at h
        · cases h
        next es hneeds =>
          have new : e ∉ t := (not_congr Std.HashMap.mem_iff_contains).mpr new
          split at h
          next ready =>
            split at h
            · cases h
            next x hx =>
              cases h
              exact .finish ⟨rfl, new, es, hneeds, Results.missing_eq_nil.mp ready⟩ hx
          next d ds pending =>
            cases h
            rw [← pending]
            exact .push new hneeds (by simp [pending])
  · intro h
    cases h with
    | drop old => simp [step, Std.HashMap.mem_iff_contains.mp old]
    | @push e rest t es new needs pending =>
      obtain ⟨d, ds, hpending⟩ := List.exists_cons_of_ne_nil pending
      have hnew : t.contains e = false := by simpa using new
      simp [step, hnew, needs, hpending]
    | @finish e rest t x due result =>
      obtain ⟨-, new, es, needs, ready⟩ := due
      have hnew : t.contains e = false := by simpa using new
      simp [step, hnew, needs, Results.missing_eq_nil.mpr ready, result]

/-- A pass is over when no node waits for a result. -/
theorem step_eq_done {p : Pass ε ρ} {s : State ρ} : p.step s = .done ↔ s.stack = [] := by
  constructor
  · intro h
    unfold step at h
    split at h
    · assumption
    · repeat' split at h
      all_goals cases h
  · intro h
    simp [step, h]

/-- A pass stops short where the needs of a node cannot be told, or where its result cannot be
worked out. -/
theorem of_step_eq_stopped {p : Pass ε ρ} {s : State ρ} {stop : Stop ε}
    (h : p.step s = .stopped stop) :
    ∃ e rest, s.stack = e :: rest ∧ e ∉ s.results ∧
      ((∃ cause, p.needs s.results e = .error cause ∧ stop = .failed cause) ∨
        p.Due s e ∧ p.finish s.results e = .error stop) := by
  unfold step at h
  split at h
  · cases h
  next e rest hstack =>
    split at h
    · cases h
    next new =>
      have new : e ∉ s.results := (not_congr Std.HashMap.mem_iff_contains).mpr new
      refine ⟨e, rest, hstack, new, ?_⟩
      split at h
      next cause hcause =>
        cases h
        exact .inl ⟨cause, hcause, rfl⟩
      next es hneeds =>
        split at h
        next ready =>
          split at h
          next stop' hstop =>
            cases h
            exact .inr ⟨⟨by rw [hstack]; rfl, new, es, hneeds, Results.missing_eq_nil.mp ready⟩,
              hstop⟩
          · cases h
        · cases h

theorem Due.finish_ne_unready {p : Pass ε ρ} {s : State ρ} {e : Expr} (h : p.Due s e)
    (ready : p.Ready) (d : Expr) : p.finish s.results e ≠ .error (.unready d) := by
  obtain ⟨es, hneeds, hes⟩ := h.needs
  exact ready _ _ es hneeds hes d

theorem step_ne_unready {p : Pass ε ρ} (ready : p.Ready) (s : State ρ) (d : Expr) :
    p.step s ≠ .stopped (.unready d) := by
  intro h
  obtain ⟨e, rest, -, -, ⟨cause, -, hcause⟩ | ⟨due, hfinish⟩⟩ := of_step_eq_stopped h
  · cases hcause
  · exact due.finish_ne_unready ready d hfinish

/-- A pass over `root` is on its way: only nodes of `root` wait for a result, and `root` is one of
them until it has its own. -/
structure Underway (root : Expr) (s : State ρ) : Prop where
  within : ∀ e ∈ s.stack, e ∈ root.preorder
  kept : root ∈ s.stack ∨ root ∈ s.results

theorem underway_start (root : Expr) (t : Results ρ) : Underway root ⟨[root], t⟩ where
  within _ he := List.mem_singleton.mp he ▸ root.mem_preorder_self
  kept := .inl (List.mem_singleton.mpr rfl)

theorem Underway.move {p : Pass ε ρ} {root : Expr} {s s' : State ρ} (h : Underway root s)
    (hmove : Move p s s') : Underway root s' := by
  obtain ⟨within, kept⟩ := h
  cases hmove with
  | @drop e rest t old =>
    refine ⟨fun d hd => within d (List.mem_cons_of_mem e hd), ?_⟩
    rcases kept with hroot | hroot
    · rcases List.mem_cons.mp hroot with rfl | hroot
      · exact .inr old
      · exact .inl hroot
    · exact .inr hroot
  | @push e rest t es new needs pending =>
    refine ⟨fun d hd => ?_, kept.imp_left fun hroot => List.mem_append_right _ hroot⟩
    rcases List.mem_append.mp hd with hd | hd
    · have hchild : d ∈ e.children :=
        (p.needs_sublist needs).subset (Results.mem_missing.mp (mem_order.mp hd)).1
      exact Expr.mem_preorder_of_mem_children hchild (within e List.mem_cons_self)
    · exact within d hd
  | @finish e rest t x due result =>
    refine ⟨fun d hd => within d (List.mem_cons_of_mem e hd), ?_⟩
    rcases kept with hroot | hroot
    · rcases List.mem_cons.mp hroot with rfl | hroot
      · exact .inr (by simp)
      · exact .inl hroot
    · exact .inr (by simp [show root ∈ t from hroot])

/-- The number of nodes of `root` that have no result. -/
def unsettled (root : Expr) (s : State ρ) : Nat := (Results.missing s.results root.preorder).length

/-- How far the next result is: with a node on top that has one the stack gets shorter, with any
other the nodes on top get smaller. -/
noncomputable def phase (s : State ρ) : Nat × Nat :=
  match s.stack with
  | [] => (0, 0)
  | e :: rest => if s.results.contains e then (1, rest.length) else (0, sizeOf e)

theorem phase_of_old {t : Results ρ} {e : Expr} (old : e ∈ t) (rest : List Expr) :
    phase ⟨e :: rest, t⟩ = (1, rest.length) := by
  simp [phase, Std.HashMap.mem_iff_contains.mp old]

theorem phase_of_new {t : Results ρ} {e : Expr} (new : e ∉ t) (rest : List Expr) :
    phase ⟨e :: rest, t⟩ = (0, sizeOf e) := by
  have hnew : t.contains e = false := by simpa using new
  simp [phase, hnew]

theorem phase_drop {t : Results ρ} {e : Expr} (old : e ∈ t) (rest : List Expr) :
    Prod.Lex (· < ·) (· < ·) (phase ⟨rest, t⟩) (phase ⟨e :: rest, t⟩) := by
  rw [phase_of_old old]
  cases rest with
  | nil => exact .left _ _ Nat.zero_lt_one
  | cons d rest =>
    by_cases hd : d ∈ t
    · rw [phase_of_old hd]
      exact .right _ (Nat.lt_succ_self _)
    · rw [phase_of_new hd]
      exact .left _ _ Nat.zero_lt_one

theorem phase_push {t : Results ρ} {e : Expr} (new : e ∉ t) {ds : List Expr} (ne : ds ≠ [])
    (hds : ∀ d ∈ ds, d ∉ t ∧ d ∈ e.children) (rest : List Expr) :
    Prod.Lex (· < ·) (· < ·) (phase ⟨ds ++ e :: rest, t⟩) (phase ⟨e :: rest, t⟩) := by
  obtain ⟨d, ds, rfl⟩ := List.exists_cons_of_ne_nil ne
  obtain ⟨hnew, hchild⟩ := hds d List.mem_cons_self
  rw [phase_of_new new, List.cons_append, phase_of_new hnew]
  exact .right _ (Expr.sizeOf_lt_of_mem_children hchild)

theorem unsettled_finish {root e : Expr} (he : e ∈ root.preorder) {t : Results ρ} (new : e ∉ t)
    (x : ρ) (rest : List Expr) :
    unsettled root ⟨rest, t.insert e x⟩ < unsettled root ⟨e :: rest, t⟩ := by
  have hless : Results.missing (t.insert e x) root.preorder =
      (t.missing root.preorder).filter fun d => !e == d := by
    simp only [Results.missing, List.filter_filter, Std.HashMap.contains_insert, Bool.not_or]
  rw [unsettled, unsettled, hless, List.length_filter_lt_length_iff_exists]
  exact ⟨e, Results.mem_missing.mpr ⟨he, new⟩, by simp⟩

/-- A move leaves fewer nodes without a result, or as many and the next result is closer. -/
theorem Move.lex {p : Pass ε ρ} {root : Expr} {s s' : State ρ} (hmove : Move p s s')
    (h : Underway root s) :
    Prod.Lex (· < ·) (Prod.Lex (· < ·) (· < ·)) (unsettled root s', phase s')
      (unsettled root s, phase s) := by
  cases hmove with
  | @drop e rest t old => exact .right _ (phase_drop old rest)
  | @push e rest t es new needs pending =>
    have hds (d : Expr) (hd : d ∈ p.order (t.missing es)) : d ∉ t ∧ d ∈ e.children :=
      have hd := Results.mem_missing.mp (mem_order.mp hd)
      ⟨hd.2, (p.needs_sublist needs).subset hd.1⟩
    exact .right _ (phase_push new (fun h => pending (order_eq_nil.mp h)) hds rest)
  | @finish e rest t x due result =>
    exact .left _ _ (unsettled_finish (h.within e List.mem_cons_self) due.new x rest)

/-- Goes on with a pass over `root` until it is over or stops short. -/
def run (p : Pass ε ρ) (ready : p.Ready) (root : Expr) (s : State ρ) (h : Underway root s) :
    Except ε ρ :=
  match hs : p.step s with
  | .done => .ok (s.results.get root (h.kept.resolve_left (by simp [step_eq_done.mp hs])))
  | .stopped (.failed cause) => .error cause
  | .stopped (.unready d) => absurd hs (step_ne_unready ready s d)
  | .next s' => run p ready root s' (h.move (step_eq_next.mp hs))
termination_by (unsettled root s, phase s)
decreasing_by exact (step_eq_next.mp hs).lex h

/-- The result of a node, by a pass that has some results already. -/
def resume (p : Pass ε ρ) (ready : p.Ready) (t : Results ρ) (e : Expr) : Except ε ρ :=
  p.run ready e ⟨[e], t⟩ (underway_start e t)

end Pass
end CircuitSketch
