import CircuitSketch.Proofs.Interface.Handed
import CircuitSketch.Proofs.Interface.Programmed

/-!
# Tables of earlier requests

A program is made anew for a request, or it is one that was made before for the same request. Either
way a lookup table has an entry of its own for everything that its inputs can spell, so it can be
programmed with any function of them. Its output is then this function of the ports, on every
platform and whatever the size of the lookup table that is placed.
-/
namespace CircuitSketch.Platform

open CircuitSketch.Expr Build

/-- A program that came of meeting a request, made anew or taken over from a request before. `on`
says which platforms the requests were made to. -/
inductive Issued (on : Platform → Prop) (r : Request) : Program → Prop
  | met {p : Platform} {ports : List (String × Operand)} {given : Option Program}
      {next last : Nat} {outs : List (String × Expr)} {d : Program} (is : on p)
      (before : ∀ g ∈ given, Issued on r g)
      (run : p.construct r ports (given.map .program) next = .ok ((outs, d), last)) : Issued on r d

variable {on : Platform → Prop} {p : Platform} {r : Request} {ports : List (String × Operand)}
  {next last : Nat} {outs : List (String × Expr)} {given : Option Program} {d : Program}

/-- A request that hands nothing over hands over issued programs only. -/
theorem Issued.of_mem_none : ∀ g ∈ (none : Option Program), Issued on r g := by
  simp

/-- However often a program was taken over, it was made for the first of the requests. -/
theorem Issued.made (h : Issued on r d) : ∃ (p : Platform) (ports : List (String × Operand))
    (next last : Nat) (outs : List (String × Expr)),
      on p ∧ p.construct r ports none next = .ok ((outs, d), last) := by
  induction h with
  | @met p ports given next last outs d is before run ih =>
    cases given with
    | none => exact ⟨p, ports, next, last, outs, is, run⟩
    | some g =>
      obtain rfl := GivenProgram.program.inj (construct_kept run)
      exact ih g rfl

section Lut

variable {n : Nat}

/-- The lookup table of a request is complete, and has as many inputs as the request asks for. -/
theorem Issued.lut (h : Issued on (.lut n) d) :
    ∃ l : LutProgram, d = .lut l ∧ l.inputs = n ∧ l.Complete := by
  obtain ⟨p, ports, next, last, outs, -, met⟩ := h.made
  cases met_of_construct met with
  | mux kind => simp [Request.lut] at kind
  | carry kind => simp [Request.lut] at kind
  | @lut g out l last kind handed built =>
    obtain rfl : g = none := by simpa using handed.symm
    obtain ⟨count, size, words, t, hcount, -, -, hissued, -, -⟩ := of_buildLut built
    obtain ⟨rfl, -⟩ := positive_lut.mp hcount
    exact ⟨l, rfl, hissued.inputs_eq, hissued.complete (by simp)⟩

/-- A request for a lookup table between single bits is met if there is a lookup table that is large
enough, and its size can be counted up to, anew or with a table for as many inputs. -/
theorem exists_construct_lut {xs : List Expr} (pos : 1 ≤ xs.length) (le : xs.length ≤ p.maxLut)
    (whole : p.pointedTable xs.length = false)
    (hports : ports.Perm (numberedPorts xs)) (bits : ∀ x ∈ xs, x.shape = .word 1)
    (hgiven : ∀ g ∈ given, ∃ l : LutProgram, g = .lut l ∧ l.inputs = xs.length) (next : Nat) :
    ∃ outs d last,
      p.construct (.lut xs.length) ports (given.map .program) next = .ok ((outs, d), last) := by
  obtain ⟨size, hsize⟩ := exists_fittingLut pos le
  have hwired : (Request.lut xs.length).wire ports (inputPorts xs.length) = .ok xs :=
    Request.wire_numberedPorts_of_perm hports bits
  have hcount : (Request.lut xs.length).size? "num_inputs" = some xs.length :=
    Datum.positive?_int _ pos
  have htold : p.toldDefect (.lut xs.length) ports (given.map .program) = none := by
    rw [toldDefect, if_pos (show (Request.lut xs.length).kind = "LUT" from rfl), lutDefect, hcount,
      Option.elim_some, tooWide, hsize, Request.misfit_eq_none hwired, whole]
    cases given with
    | none => rfl
    | some g =>
      obtain ⟨l, rfl, hl⟩ := hgiven g rfl
      simp [GivenProgram.foreign, GivenProgram.lut?, hl, Request.lut]
  obtain ⟨⟨outs, d⟩, last, h⟩ := (reports_construct p _ ports _ next).1 htold
  exact ⟨outs, d, last, h⟩

/-- The output of a lookup table that was placed for a request between single bits. -/
theorem lutOutput_of_construct {xs : List Expr} {l : LutProgram}
    (hports : ports.Perm (numberedPorts xs)) (bits : ∀ x ∈ xs, x.shape = .word 1)
    (complete : l.Complete)
    (h : p.construct (.lut xs.length) ports (given.map .program) next = .ok ((outs, .lut l), last)) :
    ∃ out, outs = [("O", out)] ∧ LutOutput xs l out := by
  cases met_of_construct h with
  | @lut g out l last kind handed built =>
    obtain ⟨count, size, words, t, hcount, hfit, hwired, hissued, rfl, -⟩ := of_buildLut built
    obtain ⟨rfl, -⟩ := positive_lut.mp hcount
    obtain rfl : xs = words :=
      Except.ok.inj ((Request.wire_numberedPorts_of_perm hports bits).symm.trans hwired)
    obtain ⟨hle, hone, hsmall⟩ := hfit.bounds
    refine ⟨_, rfl, complete.ones, t, size, hone, hsmall, hle, ?_, rfl⟩
    rw [complete.length, hissued.inputs_eq, Int.toNat_natCast]
    exact twoPow_le_twoPow hle

/-- A lookup table that is programmed with a function yields this function of its ports, the first
one first. The program may be new or that of an earlier request, on whatever platform. The size of
the lookup table that is placed has to be one that can be counted up to. -/
theorem construct_lut_computes {xs : List Expr} (pos : 1 ≤ xs.length) (le : xs.length ≤ p.maxLut)
    (whole : p.pointedTable xs.length = false)
    (hports : ports.Perm (numberedPorts xs))
    (hxs : ∀ x ∈ xs, x.WellFormed ∧ x.shape = .word 1)
    (hgiven : ∀ g ∈ given, Issued (fun _ => True) (.lut xs.length) g) (next : Nat) :
    ∃ out l last, p.construct (.lut xs.length) ports (given.map .program) next =
        .ok (([("O", out)], .lut l), last) ∧ (∀ g ∈ given, g = .lut l) ∧
      ∀ (f : List Bool → Bool) (env : Valuation) (σ : Assignment) (bits : List Bool),
        σ.Programs l f →
          List.Forall₂ (fun x b => x.interpret env σ Primitive.standard = .ok b.toNat) xs bits →
            out.interpret env σ Primitive.standard = .ok (f bits).toNat := by
  have hbits : ∀ x ∈ xs, x.shape = .word 1 := fun x hx => (hxs x hx).2
  obtain ⟨outs, d, last, h⟩ := exists_construct_lut pos le whole hports hbits (fun g hg =>
    (hgiven g hg).lut.imp fun l hl => ⟨hl.1, hl.2.1⟩) next
  obtain ⟨l, rfl, hinputs, hcomplete⟩ := (Issued.met trivial hgiven h).lut
  obtain ⟨out, rfl, houtput⟩ := lutOutput_of_construct hports hbits hcomplete h
  refine ⟨out, l, last, h, fun g hg => ?_, fun f env σ bits programmed hvalues => ?_⟩
  · obtain rfl : given = some g := hg
    exact GivenProgram.program.inj (construct_kept h)
  · have hsettles := Context.settles_concrete env hcomplete.ones
      (programmed.covers hcomplete.nodup)
    have heval := eval_bits_of_interpret (fun x hx => (hxs x hx).1) hbits hvalues
    have hlength : (bits.length : Int) = l.inputs := by rw [hinputs, heval.length_eq]
    have hout := houtput.eval_of_settles hsettles heval
    rw [programmed.computes hcomplete bits hlength] at hout
    exact interpret_bit_of_eval houtput.shape hout

/-- A table of two inputs made on one platform, and on another one placed again with four inputs.
The first input and not the second holds where only the first is set. -/
theorem construct_lut_computes_reused : ∃ d out l last σ,
    (∃ outs last₀, generic.construct (.lut 2)
      (numberedPorts [input 0 "x" 1, input 1 "y" 1]) none 2 = .ok ((outs, d), last₀)) ∧
    latticeEcp5.construct (.lut 2)
      [("I1", .expr (input 7 "b" 1)), ("I0", .expr (input 6 "a" 1))] (some (.program d)) 8 =
        .ok (([("O", out)], .lut l), last) ∧
    σ.Programs l (fun bits => bits.getD 0 false && !bits.getD 1 false) ∧
    out.interpret [("a", 1), ("b", 0)] σ Primitive.standard = .ok 1 := by
  let table : List Hole := (List.range' 2 4).map (⟨·, 1, none⟩)
  obtain ⟨⟨⟨outs, d⟩, last₀⟩, made, hd⟩ : ∃ r, generic.construct (.lut 2)
      (numberedPorts [input 0 "x" 1, input 1 "y" 1]) none 2 = .ok r ∧
        (GivenProgram.program r.1.2).lut? = some ⟨2, table⟩ :=
    exists_of_part (by decide +kernel)
  obtain rfl : d = .lut ⟨2, table⟩ := by
    cases d with
    | lut l => exact congrArg _ (Option.some.inj hd)
    | _ => cases hd
  have hports : [("I1", Operand.expr (input 7 "b" 1)), ("I0", .expr (input 6 "a" 1))].Perm
      (numberedPorts [input 6 "a" 1, input 7 "b" 1]) := .swap _ _ _
  have hgiven : ∀ g ∈ some (Program.lut ⟨2, table⟩), Issued (fun _ => True) (.lut 2) g := by
    rintro g ⟨rfl⟩
    exact .met trivial Issued.of_mem_none made
  have hinputs : ∀ x ∈ [input 6 "a" 1, input 7 "b" 1], x.WellFormed ∧ x.shape = .word 1 :=
    List.forall_mem_cons.mpr ⟨⟨wellFormed_input Nat.one_pos, rfl⟩,
      List.forall_mem_singleton.mpr ⟨wellFormed_input Nat.one_pos, rfl⟩⟩
  obtain ⟨out, l, last, h, hkept, hcomputes⟩ :=
    construct_lut_computes (p := latticeEcp5) (by decide) (by decide) (by decide) hports hinputs
      hgiven 8
  obtain rfl := Program.lut.inj (hkept _ rfl)
  have programmed : (Assignment.ofTruth table (· = ⟨3, 1, none⟩)).Programs ⟨2, table⟩
      fun bits => bits.getD 0 false && !bits.getD 1 false :=
    Assignment.programs_ofTruth (by decide) (List.Subset.refl _) (by decide)
  exact ⟨_, out, _, last, _, ⟨outs, last₀, made⟩, h, programmed,
    hcomputes _ _ _ [true, false] programmed
      (.cons (interpret_input rfl (by decide)) (.cons (interpret_input rfl (by decide)) .nil))⟩

end Lut

end CircuitSketch.Platform
