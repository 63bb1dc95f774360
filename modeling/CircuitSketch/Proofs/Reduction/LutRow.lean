import CircuitSketch.Proofs.Interface.Lut
import CircuitSketch.Reduction.Row
import CircuitSketch.Template.Bitwise

/-!
# Rows of placed lookup tables

One lookup table for each of several lists of bits. They all share one program, or each has its own;
either way the row is described by the program that each of them uses.
-/
namespace CircuitSketch

open CircuitSketch.Expr Build

/-- A row of lookup tables, one for each list of bits. `used` are their programs, and `given` the
holes handed in to program them. -/
structure LutRow (ws : List (List Expr)) (given : List Hole) (next : Nat) (outs : List Expr)
    (used : List LutProgram) (last : Nat) : Prop where
  pos : ∀ w ∈ ws, 1 ≤ w.length
  bits : ∀ w ∈ ws, ∀ x ∈ w, x.shape = .word 1
  inputs_eq : List.Forall₂ (fun w l => l.inputs = w.length) ws used
  complete : ∀ l ∈ used, l.Complete
  length : outs.length = ws.length
  outputs : List.Forall₂ (fun w o => Platform.LutOutput w o.2 o.1) ws (outs.zip used)
  sketched : Sketched ws.flatten given (used.flatMap LutProgram.table) next last outs

namespace LutRow

variable {p : Platform} {ws : List (List Expr)} {given : List Hole} {next mid last : Nat}
  {outs : List Expr} {used : List LutProgram} {l : LutProgram}

theorem nil : LutRow [] given next [] [] next where
  pos := by simp
  bits := by simp
  inputs_eq := .nil
  complete := by simp
  length := rfl
  outputs := .nil
  sketched := .refl le_rfl (by simp)

theorem cons {w : List Expr} {out : Expr} {first : Option LutProgram} {rest : List Hole}
    (head : Platform.LutSpec w first next out l mid) (tail : LutRow ws rest mid outs used last)
    (hfirst : (first.map LutProgram.table).getD [] ⊆ given) (hrest : rest ⊆ given ++ l.table) :
    LutRow (w :: ws) given next (out :: outs) (l :: used) last where
  pos := by simpa using ⟨head.pos, tail.pos⟩
  bits := by simpa using ⟨head.bits, tail.bits⟩
  inputs_eq := .cons head.inputs_eq tail.inputs_eq
  complete := by simpa using ⟨head.complete, tail.complete⟩
  length := by simp [tail.length]
  outputs := .cons head.output tail.outputs
  sketched := by
    refine head.sketched.step tail.sketched hfirst hrest (by simp) ?_ ?_ ?_
    · simp
    · exact fun x hx => by simp_all
    · simp

theorem weaken {given' : List Hole} (h : LutRow ws given next outs used last)
    (sub : given ⊆ given') : LutRow ws given' next outs used last :=
  { h with sketched := h.sketched.weaken (List.Subset.refl _) (List.Subset.refl _) sub le_rfl le_rfl }

theorem length_used (h : LutRow ws given next outs used last) : used.length = ws.length :=
  h.inputs_eq.length_eq.symm

/-- The output of each lookup table, with the program that it uses. -/
theorem output (h : LutRow ws given next outs used last) {i : Nat} (hi : i < ws.length) :
    Platform.LutOutput ws[i] (used.get ⟨i, h.length_used ▸ hi⟩) (outs.get ⟨i, h.length ▸ hi⟩) := by
  have hall := (List.forall₂_iff_get.mp h.outputs).2 i hi
    (by simp [h.length, h.length_used, hi])
  simpa using hall

theorem shape (h : LutRow ws given next outs used last) : ∀ y ∈ outs, y.shape = .word 1 := by
  intro y hy
  obtain ⟨i, hi, rfl⟩ := List.getElem_of_mem hy
  exact (h.output (h.length ▸ hi)).shape

theorem uses (h : LutRow ws given next outs used last) :
    ∀ x ∈ ws.flatten, x ∈ preorderAll outs := by
  intro x hx
  obtain ⟨w, hw, hxw⟩ := List.mem_flatten.mp hx
  obtain ⟨i, hi, rfl⟩ := List.getElem_of_mem hw
  exact mem_preorderAll.mpr ⟨_, List.getElem_mem _, (h.output hi).uses x hxw⟩

theorem wires (h : LutRow ws given next outs used last) :
    ∀ k ∈ used.flatMap LutProgram.table, .hole k ∈ preorderAll outs := by
  intro k hk
  obtain ⟨l, hl, hkl⟩ := List.mem_flatMap.mp hk
  obtain ⟨i, hi, rfl⟩ := List.getElem_of_mem hl
  have hiw : i < ws.length := h.length_used ▸ hi
  exact mem_preorderAll.mpr ⟨_, List.getElem_mem (h.length ▸ hiw), (h.output hiw).wires k hkl⟩

/-- The outputs of a row in which every lookup table has the same program. -/
theorem shared (h : LutRow ws given next outs (List.replicate ws.length l) last) :
    List.Forall₂ (fun w o => Platform.LutOutput w l o) ws outs := by
  refine List.forall₂_iff_get.mpr ⟨h.length.symm, fun i hi hi' => ?_⟩
  have hout := h.output hi
  rwa [List.get_eq_getElem, List.getElem_replicate] at hout

/-- A row in which every lookup table has the same program is programmed by that. -/
theorem mem_shared {k : Hole} (ne : ws ≠ []) :
    k ∈ (List.replicate ws.length l).flatMap LutProgram.table ↔ k ∈ l.table := by
  have hne : ws.length ≠ 0 := by simpa using ne
  simp [List.mem_flatMap, List.mem_replicate, hne]

end LutRow

namespace Row

variable {p : Platform} {ws : List (List Expr)} {next last : Nat} {outs : List Expr}
  {l : LutProgram}

/-- The tables of a bitwise function are a row with one shared program. -/
theorem tables_eq_placeShared (p : Platform) (given : Option LutProgram) (ws : List (List Expr)) :
    Template.tables p given ws = placeShared p given ws := by
  induction ws generalizing given with
  | nil => rfl
  | cons w ws ih => simp only [Template.tables, placeShared, ih]

/-- A program that is handed in is the one that the whole row uses. -/
theorem placeShared_kept {program : Option LutProgram}
    (h : placeShared p (some l) ws next = .ok ((outs, program), last)) : program = some l := by
  induction ws generalizing next outs with
  | nil =>
    cases h
    rfl
  | cons w ws ih =>
    obtain ⟨⟨out, l'⟩, mid, hout, h⟩ := of_bind h
    obtain ⟨⟨rest, program⟩, stop, hrest, h⟩ := of_bind h
    cases h
    rw [Platform.lut_kept hout] at hrest
    exact ih hrest

theorem placeShared_some_spec {program : Option LutProgram} (hl : l.Complete)
    (h : placeShared p (some l) ws next = .ok ((outs, program), last)) :
    LutRow ws l.table next outs (List.replicate ws.length l) last := by
  induction ws generalizing next outs with
  | nil =>
    cases h
    exact .nil
  | cons w ws ih =>
    obtain ⟨⟨out, l'⟩, mid, hout, h⟩ := of_bind h
    obtain ⟨⟨rest, program⟩, stop, hrest, h⟩ := of_bind h
    cases h
    obtain rfl := Platform.lut_kept hout
    exact .cons (Platform.lut_spec (by simpa using hl) hout) (ih hrest) (by simp) (by simp)

/-- A row with one program, which is the one handed in if there is one. -/
theorem placeShared_spec {given program : Option LutProgram} (ne : ws ≠ [])
    (hgiven : ∀ g ∈ given, g.Complete)
    (h : placeShared p given ws next = .ok ((outs, program), last)) :
    ∃ l, program = some l ∧ (∀ g ∈ given, l = g) ∧
      LutRow ws ((given.map LutProgram.table).getD []) next outs (List.replicate ws.length l)
        last := by
  obtain ⟨w, ws, rfl⟩ := List.exists_cons_of_ne_nil ne
  obtain ⟨⟨out, l⟩, mid, hout, h⟩ := of_bind h
  obtain ⟨⟨rest, program⟩, stop, hrest, h⟩ := of_bind h
  cases h
  have hspec := Platform.lut_spec hgiven hout
  have hrow := placeShared_some_spec hspec.complete hrest
  refine ⟨l, placeShared_kept hrest, fun g hg => ?_, .cons hspec hrow (by simp) (by simp)⟩
  rw [Option.mem_def] at hg
  exact Platform.lut_kept (hg ▸ hout)

/-- A row of lookup tables that share a program can be placed. -/
theorem exists_placeShared {n size : Nat} (fits : p.Fitting n size) (pos : 1 ≤ n)
    (hws : ∀ w ∈ ws, w.length = n ∧ ∀ x ∈ w, x.shape = .word 1) (given : Option LutProgram)
    (sized : ∀ g ∈ given, g.inputs = n) (next : Nat) :
    ∃ outs program last, placeShared p given ws next = .ok ((outs, program), last) := by
  induction ws generalizing given next with
  | nil => exact ⟨[], given, next, rfl⟩
  | cons w ws ih =>
    obtain ⟨rfl, hbits⟩ := hws w (by simp)
    obtain ⟨out, l, t, hout, -⟩ := Platform.exists_lut fits pos hbits given sized next
    obtain ⟨outs, program, last, hrest⟩ := ih (fun v hv => hws v (by simp [hv])) (some l)
      (by simpa using Platform.lut_sized hout) t
    refine ⟨out :: outs, program, last, ?_⟩
    rw [placeShared, bind_of_ok hout]
    simp only
    rw [bind_of_ok hrest]
    rfl

/-- A row of lookup tables with a program for each can be placed. -/
theorem exists_placeSeparate {n size : Nat} (fits : p.Fitting n size) (pos : 1 ≤ n)
    (hws : ∀ w ∈ ws, w.length = n ∧ ∀ x ∈ w, x.shape = .word 1) (given : List LutProgram)
    (sized : ∀ g ∈ given, g.inputs = n) (next : Nat) :
    ∃ outs programs last, placeSeparate p given ws next = .ok ((outs, programs), last) := by
  induction ws generalizing given next with
  | nil => exact ⟨[], [], next, rfl⟩
  | cons w ws ih =>
    obtain ⟨rfl, hbits⟩ := hws w (by simp)
    obtain ⟨out, l, t, hout, -⟩ := Platform.exists_lut fits pos hbits given.head?
      (fun g hg => sized g (List.mem_of_head? hg)) next
    obtain ⟨outs, programs, last, hrest⟩ := ih (fun v hv => hws v (by simp [hv])) given.tail
      (fun g hg => sized g (List.mem_of_mem_tail hg)) t
    refine ⟨out :: outs, l :: programs, last, ?_⟩
    rw [placeSeparate, bind_of_ok hout]
    simp only
    rw [bind_of_ok hrest]
    rfl

/-- A row in which each lookup table has a program of its own. -/
theorem placeSeparate_spec {given programs : List LutProgram} (hgiven : ∀ g ∈ given, g.Complete)
    (h : placeSeparate p given ws next = .ok ((outs, programs), last)) :
    LutRow ws (given.flatMap LutProgram.table) next outs programs last := by
  induction ws generalizing given next outs programs with
  | nil =>
    cases h
    exact .nil
  | cons w ws ih =>
    obtain ⟨⟨out, l⟩, mid, hout, h⟩ := of_bind h
    obtain ⟨⟨rest, programs⟩, stop, hrest, h⟩ := of_bind h
    cases h
    have hhead : ∀ g ∈ given.head?, g.Complete := fun g hg => hgiven g (List.mem_of_head? hg)
    have htail : ∀ g ∈ given.tail, g.Complete := fun g hg => hgiven g (List.mem_of_mem_tail hg)
    refine .cons (Platform.lut_spec hhead hout) (ih htail hrest) ?_ ?_
    · cases given <;> simp
    · cases given <;> simp

/-- Programs that are handed in for every table are the ones that the tables use. -/
theorem placeSeparate_kept {given programs : List LutProgram} (length : given.length = ws.length)
    (h : placeSeparate p given ws next = .ok ((outs, programs), last)) : programs = given := by
  induction ws generalizing given next outs programs with
  | nil =>
    cases h
    exact (List.length_eq_zero_iff.mp length).symm
  | cons w ws ih =>
    obtain ⟨g, given, rfl⟩ := List.exists_cons_of_length_eq_add_one length
    obtain ⟨⟨out, l⟩, mid, hout, h⟩ := of_bind h
    obtain ⟨⟨rest, programs⟩, stop, hrest, h⟩ := of_bind h
    cases h
    rw [Platform.lut_kept hout, ih (by simpa using length) hrest]
    rfl

end Row
end CircuitSketch
