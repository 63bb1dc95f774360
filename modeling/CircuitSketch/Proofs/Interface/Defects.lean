import CircuitSketch.Proofs.Interface.Carry
import CircuitSketch.Proofs.Interface.Mux

/-!
# Which defect of a request is told

A request can have several defects at once: it cannot be met at all, its ports have the wrong names
or widths, or it comes with a program that does not fit. They are meant to be told in this order. A
request without one of them is met, if the platform can count up to the numbers that it is met with.
-/
namespace CircuitSketch

open Build

/-- The defects that are told apart, in the order in which they are meant to be told. -/
inductive Defect
  | unsupported
  | ports
  | widths
  | program
  | pointed
deriving DecidableEq

/-- The defect that a refusal tells of, if it is one of a request or of the numbers it is met with.
-/
def Refusal.defect? : Refusal → Option Defect
  | unsupported _ => some .unsupported
  | ports .. => some .ports
  | portWidth .. => some .widths
  | mismatch _ => some .program
  | option .pointed => some .pointed
  | _ => none

/-- A defect that is there under a condition. -/
def Defect.onlyIf (d : Defect) (there : Bool) : Option Defect := if there then some d else none

@[simp] theorem Defect.onlyIf_true (d : Defect) : d.onlyIf true = some d := rfl

@[simp] theorem Defect.onlyIf_false (d : Defect) : d.onlyIf false = none := rfl

theorem Defect.onlyIf_ne {d k : Defect} (h : d ≠ k) (there : Bool) : d.onlyIf there ≠ some k := by
  cases there <;> simp [h]

theorem orElse_none (d : Option Defect) : (d <|> none) = d := by cases d <;> rfl

theorem orElse_ne {d c : Option Defect} {k : Defect} (hd : d ≠ some k) (hc : c ≠ some k) :
    (d <|> c) ≠ some k := by
  cases d with
  | none => exact hc
  | some j => exact hd

theorem elim_ne {α : Type} {o : Option α} {j k : Defect} {d : α → Option Defect} (hj : j ≠ k)
    (hd : ∀ a ∈ o, d a ≠ some k) : o.elim (some j) d ≠ some k := by
  cases o with
  | none => simpa using hj
  | some a => exact hd a rfl

namespace Build

variable {α γ : Type} {b : Build Refusal α} {f : α → Build Refusal γ} {d c : Option Defect}

/-- A request is met if nothing is wrong with it, and else turned down for a given defect. -/
def Reports (b : Build Refusal α) (d : Option Defect) : Prop :=
  ∀ next, (d = none → ∃ a last, b next = .ok (a, last)) ∧
    ∀ k, d = some k → ∃ e, b next = .error e ∧ e.defect? = some k

theorem Succeeds.reports (h : b.Succeeds) : b.Reports none :=
  fun next => ⟨fun _ => h next, by simp⟩

theorem reports_fail {e : Refusal} {k : Defect} (h : e.defect? = some k) :
    (Build.fail e : Build Refusal α).Reports (some k) :=
  fun _ => ⟨by simp, fun j hj => ⟨e, rfl, h.trans hj⟩⟩

theorem reports_lift_ok {x : Except Refusal α} {a : α} (h : x = .ok a) :
    (liftM x : Build Refusal α).Reports none :=
  fun _ => ⟨fun _ => ⟨a, _, lift_of_ok h⟩, by simp⟩

theorem reports_lift_error {x : Except Refusal α} {e : Refusal} {k : Defect} (h : x = .error e)
    (hk : e.defect? = some k) : (liftM x : Build Refusal α).Reports (some k) := by
  subst h
  exact fun _ => ⟨by simp, fun j hj => ⟨e, rfl, hk.trans hj⟩⟩

/-- The first defect counts. -/
theorem Reports.bind (hb : b.Reports d)
    (hf : d = none → ∀ a next last, b next = .ok (a, last) → (f a).Reports c) :
    (b >>= f).Reports (d <|> c) := by
  intro next
  cases d with
  | none =>
    obtain ⟨a, last, ha⟩ := (hb next).1 rfl
    rw [bind_of_ok ha]
    exact hf rfl a next last ha last
  | some k =>
    obtain ⟨e, he, hk⟩ := (hb next).2 k rfl
    exact ⟨by simp, fun j hj => ⟨e, bind_of_error he, hk.trans hj⟩⟩

theorem Reports.map (hb : b.Reports d) (f : α → γ) : (b >>= fun a => pure (f a)).Reports d := by
  have h := hb.bind (c := none) fun _ a _ _ _ => (succeeds_pure (ε := Refusal) (f a)).reports
  rwa [orElse_none] at h

/-- A program that is handed in is checked. -/
theorem reports_check {P : Prop} [Decidable P] {a : α} {e : Refusal} {k : Defect}
    (h : e.defect? = some k) (hf : (f a).Reports d) :
    (if P then (pure a : Build Refusal α) >>= f else (Build.fail e : Build Refusal α) >>= f).Reports
      (k.onlyIf (decide ¬P) <|> d) := by
  by_cases hP : P
  · simpa [hP, Defect.onlyIf] using hf
  · simpa [hP, Defect.onlyIf] using (reports_fail (α := α) h).bind (f := f) (c := d) (by simp)

theorem reports_unless {P : Prop} [Decidable P] {g : Unit → Build Refusal γ} {e : Refusal} {k : Defect}
    (h : e.defect? = some k) (hg : (g ()).Reports d) :
    (if P then (Build.fail e : Build Refusal Unit) >>= g else g ()).Reports
      (k.onlyIf (decide P) <|> d) := by
  by_cases hP : P
  · simpa [hP, Defect.onlyIf] using (reports_fail (α := Unit) h).bind (f := g) (c := d) (by simp)
  · simpa [hP, Defect.onlyIf] using hg

theorem reports_checkPlain {c : Count} :
    (liftM c.checkPlain : Build Refusal Unit).Reports (Defect.pointed.onlyIf c.pointed) := by
  cases h : c.pointed with
  | true => exact reports_lift_error (show c.checkPlain = _ by rw [Count.checkPlain, if_pos h]) rfl
  | false => exact reports_lift_ok (Count.checkPlain_eq_ok (u := ()).mpr h)

/-- Where nothing else can go wrong, what is told is that a number cannot be counted up to. -/
theorem Succeeds.reports_counted (h : b.Succeeds) (c : Count) :
    ((liftM c.checkPlain : Build Refusal Unit) >>= fun _ => b).Reports
      (Defect.pointed.onlyIf c.pointed) := by
  have hcounted := (reports_checkPlain (c := c)).bind fun _ _ _ _ _ => h.reports
  rwa [orElse_none] at hcounted

/-- A request tells of one defect only. -/
theorem Reports.unique (h : b.Reports d) (h' : b.Reports c) : d = c := by
  have hok : d = none → c = none := by
    rintro rfl
    obtain ⟨a, last, ha⟩ := (h 0).1 rfl
    refine Option.eq_none_iff_forall_not_mem.mpr fun k hk => ?_
    obtain ⟨e, he, -⟩ := (h' 0).2 k hk
    rw [ha] at he
    cases he
  cases d with
  | none => exact (hok rfl).symm
  | some k =>
    obtain ⟨e, he, hk⟩ := (h 0).2 k rfl
    cases c with
    | none =>
      obtain ⟨a, last, ha⟩ := (h' 0).1 rfl
      rw [he] at ha
      cases ha
    | some j =>
      obtain ⟨e', he', hj⟩ := (h' 0).2 j rfl
      rw [he] at he'
      cases he'
      exact hk.symm.trans hj

end Build

/-- The number that a parameter of a request gives. -/
def Request.size? (r : Request) (name : String) : Option Nat :=
  (r.parameters.lookup name).bind Datum.positive?

/-- What is wrong with the wiring of a request. -/
def Request.misfit (ports : List (String × Operand)) (expected : List (String × Nat)) :
    Option Defect :=
  Defect.ports.onlyIf (!Request.named ports expected) <|>
    Defect.widths.onlyIf (!Request.fitted ports expected)

theorem Request.misfit_ne {ports : List (String × Operand)} {expected : List (String × Nat)}
    {k : Defect} (names : .ports ≠ k) (widths : .widths ≠ k) :
    Request.misfit ports expected ≠ some k :=
  orElse_ne (Defect.onlyIf_ne names _) (Defect.onlyIf_ne widths _)

namespace Request

variable {r : Request} {name : String} {ports : List (String × Operand)}
  {expected : List (String × Nat)}

theorem positive_of_size {n : Nat} (h : r.size? name = some n) : r.positive name = .ok n := by
  obtain ⟨d, hd, hn⟩ := Option.bind_eq_some_iff.mp h
  rw [positive, hd]
  simp only [hn]

/-- A request that gives no number for a parameter is not supported. -/
theorem reports_positive {γ : Type} {f : Nat → Build Refusal γ} {d : Nat → Option Defect}
    (hf : ∀ n, 1 ≤ n → (f n).Reports (d n)) :
    ((liftM (r.positive name) : Build Refusal Nat) >>= f).Reports
      ((r.size? name).elim (some .unsupported) d) := by
  cases h : r.size? name with
  | some n =>
    have hpos := one_le_of_positive (positive_of_size h)
    refine (reports_lift_ok (positive_of_size h)).bind fun _ a next last ha => ?_
    rw [lift_of_ok (positive_of_size h)] at ha
    cases ha
    exact hf n hpos
  | none =>
    have hfail : ∃ cause, r.positive name = .error (.unsupported cause) := by
      rw [positive]
      rw [size?] at h
      cases hd : r.parameters.lookup name with
      | none => exact ⟨_, rfl⟩
      | some d =>
        rw [hd, Option.bind_some] at h
        simp only [h]
        exact ⟨_, rfl⟩
    obtain ⟨cause, hcause⟩ := hfail
    exact (reports_lift_error hcause rfl).bind (c := none) (by simp)

theorem reports_wire :
    (liftM (r.wire ports expected) : Build Refusal (List Expr)).Reports (misfit ports expected) := by
  rw [misfit]
  cases hnamed : named ports expected with
  | false =>
    obtain ⟨missing, unexpected, h⟩ := wire_of_not_named (r := r) hnamed
    exact reports_lift_error h rfl
  | true =>
    cases hfitted : fitted ports expected with
    | false =>
      obtain ⟨port, width, actual, h⟩ := wire_of_not_fitted (r := r) hnamed hfitted
      exact reports_lift_error h rfl
    | true =>
      obtain ⟨words, h, -⟩ := wire_of_fitted (r := r) hnamed hfitted
      exact reports_lift_ok h

theorem misfit_eq_none {words : List Expr} (h : r.wire ports expected = .ok words) :
    misfit ports expected = none :=
  reports_wire.unique (reports_lift_ok h)

end Request

namespace Platform

variable {p : Platform} {r : Request} {ports : List (String × Operand)}

/-- No lookup table has as many inputs. -/
def tooWide (p : Platform) (inputs : Nat) : Bool := (p.fittingLut? inputs).isNone

theorem reports_fittingLut {inputs : Nat} :
    (liftM (p.fittingLut r inputs) : Build Refusal Nat).Reports
      (Defect.unsupported.onlyIf (p.tooWide inputs)) := by
  rw [tooWide]
  cases h : p.fittingLut? inputs with
  | some size => exact reports_lift_ok (show p.fittingLut r inputs = .ok size by rw [fittingLut, h])
  | none =>
    have hfail : ∃ cause, p.fittingLut r inputs = .error (.unsupported cause) := by
      rw [fittingLut, h]
      exact ⟨_, rfl⟩
    obtain ⟨cause, hcause⟩ := hfail
    exact reports_lift_error hcause rfl

theorem succeeds_placeLut (size : Nat) (inputs : List Expr) (table : List Hole) :
    (placeLut size inputs table).Succeeds := by
  refine (succeeds_node _ _ _).bind fun _ _ _ _ => (succeeds_concatBits _).bind fun _ _ _ _ =>
    (succeeds_node _ _ _).bind fun _ _ _ _ => succeeds_node _ _ _

/-- What is wrong with a request for a lookup table. -/
def lutDefect (p : Platform) (r : Request) (ports : List (String × Operand))
    (given : Option LutProgram) : Option Defect :=
  (r.size? "num_inputs").elim (some .unsupported) fun n =>
    Defect.unsupported.onlyIf (p.tooWide n) <|> Request.misfit ports (inputPorts n) <|>
      Defect.program.onlyIf (given.any fun l => l.inputs ≠ (n : Int)) <|>
        Defect.pointed.onlyIf (p.pointedTable n)

theorem reports_buildLut (given : Option LutProgram) :
    (p.buildLut r ports given).Reports (p.lutDefect r ports given) := by
  refine Request.reports_positive fun n _ => reports_fittingLut.bind fun _ size _ _ hfitting =>
    Request.reports_wire.bind fun _ words _ _ _ => ?_
  have hplaced : ∀ l : LutProgram, ((liftM (p.written size).checkPlain : Build Refusal Unit) >>=
      fun _ => placeLut size words l.table >>= fun out =>
        (pure (out, l) : Build Refusal (Expr × LutProgram))).Reports
          (Defect.pointed.onlyIf (p.pointedTable n)) := fun l => by
    rw [pointedTable_eq (of_fittingLut (of_lift hfitting).1)]
    exact ((succeeds_placeLut size words l.table).bind fun _ _ _ _ =>
      succeeds_pure _).reports_counted _
  cases given with
  | none =>
    have hnew : (newLutProgram n : Build Refusal LutProgram).Reports none :=
      ((succeeds_newBits _).bind fun _ _ _ _ => succeeds_pure _).reports
    exact hnew.bind fun _ l _ _ _ => hplaced l
  | some l => exact reports_check (P := l.inputs = n) rfl (hplaced l)

/-- What is wrong with a request for a carry chain. -/
def carryDefect (unit : CarryUnit) (r : Request) (ports : List (String × Operand))
    (given : Option CarryProgram) : Option Defect :=
  (r.size? "width").elim (some .unsupported) fun w =>
    Request.misfit ports [("CI", 1), ("DI", w), ("S", w)] <|>
      Defect.program.onlyIf (given.any fun c => c.width ≠ (w : Int)) <|>
        Defect.pointed.onlyIf unit.chunk.pointed

theorem reports_buildCarry {unit : CarryUnit} (given : Option CarryProgram) :
    (buildCarry unit r ports given).Reports (carryDefect unit r ports given) := by
  refine Request.reports_positive fun w _ => Request.reports_wire.bind fun hfits words a b hwords => ?_
  obtain ⟨ci, di, s, rfl⟩ : ∃ ci di s, words = [ci, di, s] := by
    rw [← List.length_eq_three, ← (Request.forall₂_of_wire (of_lift hwords).1).length_eq]
    rfl
  have hplaced : ∀ c : CarryProgram, ((liftM unit.chunk.checkPlain : Build Refusal Unit) >>= fun _ =>
      carryBlocks unit di s w 0 ci >>= fun r => concatBits r.1 >>= fun sum =>
        (pure (sum, r.2, c) : Build Refusal (Expr × Expr × CarryProgram))).Reports
          (Defect.pointed.onlyIf unit.chunk.pointed) := fun c =>
    ((succeeds_carryBlocks unit di s w 0 ci).bind fun _ _ _ _ => (succeeds_concatBits _).bind
      fun _ _ _ _ => succeeds_pure _).reports_counted _
  cases given with
  | none => exact hplaced ⟨w⟩
  | some c => exact reports_check (P := c.width = w) rfl (hplaced c)

/-- What is wrong with the table that a multiplexer of `count` inputs is built from. -/
def muxTableDefect (p : Platform) (count : Nat) (given : Option MuxProgram) : Option Defect :=
  Defect.program.onlyIf (given.any fun m => m.lut.isNone) <|>
    Defect.unsupported.onlyIf (p.tooWide (count + selectWidth count)) <|>
      Defect.program.onlyIf (given.any fun m => m.lut.any fun l =>
        l.inputs ≠ ((count + selectWidth count : Nat) : Int)) <|>
          Defect.pointed.onlyIf (p.pointedTable (count + selectWidth count))

/-- What is wrong with a request for a multiplexer of a given style. One that is built from a lookup
table asks for the table only after it has looked at everything else. -/
def muxDefect (p : Platform) (style : MuxStyle) (r : Request) (ports : List (String × Operand))
    (given : Option MuxProgram) : Option Defect :=
  (r.size? "num_inputs").elim (some .unsupported) fun n =>
    Defect.unsupported.onlyIf (n < 2) <|> Request.misfit ports (muxPorts n) <|>
      Defect.program.onlyIf (given.any fun m => m.inputs ≠ (n : Int)) <|>
        if style = .lut then p.muxTableDefect n given else none

/-- Single bits can be read with a table of the right size, if there is one that large. -/
theorem reports_lut {words : List Expr} (pos : 1 ≤ words.length)
    (bits : ∀ x ∈ words, x.shape = .word 1) (given : Option LutProgram) :
    (p.buildLut (.lut words.length) (numberedPorts words) given).Reports
      (Defect.unsupported.onlyIf (p.tooWide words.length) <|>
        Defect.program.onlyIf (given.any fun l => l.inputs ≠ (words.length : Int)) <|>
          Defect.pointed.onlyIf (p.pointedTable words.length)) := by
  have hsize : (Request.lut words.length).size? "num_inputs" = some words.length :=
    Datum.positive?_int _ pos
  have hfits : Request.misfit (numberedPorts words) (inputPorts words.length) = none :=
    Request.misfit_eq_none (r := Request.lut words.length)
      (Request.wire_numberedPorts.mpr ⟨rfl, bits⟩)
  have h : (p.buildLut (.lut words.length) (numberedPorts words) given).Reports _ :=
    reports_buildLut given
  rwa [lutDefect, hsize, Option.elim_some, hfits] at h

/-- A multiplexer reads its inputs and its select bits with one table. -/
theorem reports_muxTable {n : Nat} {inputs : List Expr} {select : Expr} (pos : 1 ≤ n)
    (length : inputs.length = n) (bits : ∀ x ∈ inputs, x.shape = .word 1)
    (hselect : select.shape = .word (selectWidth n)) (given : Option LutProgram)
    (f : Expr × LutProgram → Expr × MuxProgram) :
    ((Build.bits select : Build Refusal (List Expr)) >>= fun selectBits =>
      p.buildLut (.lut (inputs ++ selectBits).length) (numberedPorts (inputs ++ selectBits)) given >>=
        fun r => pure (f r)).Reports
      (Defect.unsupported.onlyIf (p.tooWide (n + selectWidth n)) <|>
        Defect.program.onlyIf (given.any fun l => l.inputs ≠ ((n + selectWidth n : Nat) : Int)) <|>
          Defect.pointed.onlyIf (p.pointedTable (n + selectWidth n))) := by
  refine (succeeds_bits select).reports.bind fun _ selectBits _ _ hbits => ?_
  have hcuts := (of_bits hselect hbits).2
  have hwords : ∀ x ∈ inputs ++ selectBits, x.shape = .word 1 := by
    intro x hx
    rcases List.mem_append.mp hx with hx | hx
    · exact bits x hx
    · obtain ⟨i, -, hcut⟩ := exists_of_forall₂_right hcuts hx
      exact hcut.shape_bit
  have hlen : (inputs ++ selectBits).length = n + selectWidth n := by
    rw [List.length_append, length, ← hcuts.length_eq, List.length_range]
  have hlut := reports_lut (p := p) (by omega) hwords given
  rw [hlen] at hlut ⊢
  exact hlut.map f

theorem reports_buildMux {style : MuxStyle} (given : Option MuxProgram) :
    (p.buildMux style r ports given).Reports (p.muxDefect style r ports given) := by
  refine Request.reports_positive fun n hpos => ?_
  by_cases hn : n < 2
  · simpa [hn, Defect.onlyIf] using reports_fail rfl
  simp only [hn, if_false]
  refine Request.reports_wire.bind fun _ words _ _ hwords => ?_
  obtain ⟨hlen, hinputs, -, hselect⟩ := of_wire_mux (of_lift hwords).1
  cases style with
  | native =>
    have hplaced : ∀ u : Unit, (Build.list (words.take n) >>= fun items =>
        Build.lookup items (words.getLastD default) >>= fun out =>
          (pure (out, given.getD ⟨n, none⟩) : Build Refusal (Expr × MuxProgram))).Succeeds :=
      fun _ => (succeeds_node _ _ _).bind fun _ _ _ _ => (succeeds_node _ _ _).bind
        fun _ _ _ _ => succeeds_pure _
    cases given with
    | none => exact (hplaced ()).reports
    | some m => exact reports_unless rfl (hplaced ()).reports
  | lut =>
    rw [if_pos rfl, muxTableDefect]
    have htable := reports_muxTable (p := p) hpos hlen hinputs hselect
    cases given with
    | none => exact htable none fun r => (r.1, ⟨n, some r.2⟩)
    | some m =>
      refine reports_unless rfl ?_
      simp only [Option.any_some]
      cases m.lut with
      | none => exact (succeeds_bits _).reports.bind fun _ _ _ _ _ => reports_fail rfl
      | some l => exact htable (some l) fun r => (r.1, m)

end Platform

namespace GivenProgram

/-- The program of a lookup table. -/
def lut? : GivenProgram → Option LutProgram
  | program (.lut l) => some l
  | _ => none

/-- The program of a multiplexer. -/
def mux? : GivenProgram → Option MuxProgram
  | program (.mux m) => some m
  | _ => none

/-- The program of a carry chain. -/
def carry? : GivenProgram → Option CarryProgram
  | program (.carry c) => some c
  | _ => none

variable {g : GivenProgram}

theorem lut?_eq_none (h : ∀ l, g ≠ program (.lut l)) : g.lut? = none := by
  rw [lut?]
  exact h

theorem mux?_eq_none (h : ∀ m, g ≠ program (.mux m)) : g.mux? = none := by
  rw [mux?]
  exact h

theorem carry?_eq_none (h : ∀ c, g ≠ program (.carry c)) : g.carry? = none := by
  rw [carry?]
  exact h

/-- A program that is not one for a kind of request. -/
def foreign (kind : String) (g : GivenProgram) : Bool :=
  if kind = "LUT" then g.lut?.isNone
  else if kind = "MUX" then g.mux?.isNone
  else g.carry?.isNone

end GivenProgram

namespace Platform

variable {p : Platform} {r : Request} {ports : List (String × Operand)}
  {given : Option GivenProgram}

/-- What a request wants: its ports, the number of inputs of the lookup table that is needed for it,
if one is, the programs that fit, and whether it counts up to a number with a point. -/
structure Wanted where
  ports : List (String × Nat)
  table : Option Nat
  accepts : GivenProgram → Bool
  pointed : Bool

/-- What a request wants, if its kind is provided and its parameters make sense. -/
def wanted? (p : Platform) (r : Request) : Option Wanted :=
  if r.kind = "LUT" then
    (r.size? "num_inputs").map fun n =>
      ⟨inputPorts n, some n, fun g => g.lut?.any fun l => l.inputs = (n : Int), p.pointedTable n⟩
  else if r.kind = "MUX" then
    p.mux.bind fun style => (r.size? "num_inputs").bind fun n =>
      if n < 2 then none
      else if style = .lut then
        some ⟨muxPorts n, some (n + selectWidth n), fun g => g.mux?.any fun m =>
          m.inputs = (n : Int) && m.lut.any fun l => l.inputs = ((n + selectWidth n : Nat) : Int),
            p.pointedTable (n + selectWidth n)⟩
      else some ⟨muxPorts n, none, fun g => g.mux?.any fun m => m.inputs = (n : Int), false⟩
  else if r.kind = "carry" then
    p.carry.bind fun unit => (r.size? "width").map fun w =>
      ⟨[("CI", 1), ("DI", w), ("S", w)], none, fun g => g.carry?.any fun c => c.width = (w : Int),
        unit.chunk.pointed⟩
  else none

/-- The defect of a request that is to be told: that it is not supported, or else that its ports
have the wrong names, or else that one has the wrong width, or else that its program does not fit,
or else that a number cannot be counted up to. -/
def dueDefect (p : Platform) (r : Request) (ports : List (String × Operand))
    (given : Option GivenProgram) : Option Defect :=
  (p.wanted? r).elim (some .unsupported) fun k =>
    Defect.unsupported.onlyIf (k.table.any p.tooWide) <|> Request.misfit ports k.ports <|>
      Defect.program.onlyIf (given.any fun g => !k.accepts g) <|> Defect.pointed.onlyIf k.pointed

/-- The defect of a request that is told: before all others that its program is one of another kind.
-/
def toldDefect (p : Platform) (r : Request) (ports : List (String × Operand))
    (given : Option GivenProgram) : Option Defect :=
  if r.kind = "LUT" then
    Defect.program.onlyIf (given.any (·.foreign r.kind)) <|>
      p.lutDefect r ports (given.bind GivenProgram.lut?)
  else if r.kind = "MUX" then
    p.mux.elim (some .unsupported) fun style =>
      Defect.program.onlyIf (given.any (·.foreign r.kind)) <|>
        p.muxDefect style r ports (given.bind GivenProgram.mux?)
  else if r.kind = "carry" then
    p.carry.elim (some .unsupported) fun unit =>
      Defect.program.onlyIf (given.any (·.foreign r.kind)) <|>
        carryDefect unit r ports (given.bind GivenProgram.carry?)
  else some .unsupported

theorem reports_foreign {α γ : Type} {g : GivenProgram} (f : α → Build Refusal γ)
    (d : Option Defect) (h : g.foreign r.kind) :
    ((Build.fail (.mismatch (.kind r g.kind)) : Build Refusal α) >>= f).Reports
      (Defect.program.onlyIf ((some g).any (·.foreign r.kind)) <|> d) := by
  rw [Option.any_some, h]
  exact (reports_fail rfl).bind (c := d) (by simp)

theorem reports_construct (p : Platform) (r : Request) (ports : List (String × Operand))
    (given : Option GivenProgram) :
    (p.construct r ports given).Reports (p.toldDefect r ports given) := by
  rw [construct, toldDefect]
  split
  · next hkind =>
    rw [if_pos hkind]
    split
    · exact (reports_buildLut none).map fun x => ([("O", x.1)], Program.lut x.2)
    · next l =>
      rw [hkind]
      exact (reports_buildLut (some l)).map fun x => ([("O", x.1)], Program.lut x.2)
    · next g hother =>
      have hnone := GivenProgram.lut?_eq_none (g := g) fun l hl => hother l (by rw [hl])
      exact reports_foreign _ _ (by rw [GivenProgram.foreign, if_pos hkind, hnone]; rfl)
  · next style hkind hstyle =>
    rw [if_neg (by rw [hkind]; decide), if_pos hkind, hstyle, Option.elim_some]
    split
    · exact (reports_buildMux none).map fun x => ([("O", x.1)], Program.mux x.2)
    · next m =>
      rw [hkind]
      exact (reports_buildMux (some m)).map fun x => ([("O", x.1)], Program.mux x.2)
    · next g hother =>
      have hnone := GivenProgram.mux?_eq_none (g := g) fun m hm => hother m (by rw [hm])
      refine reports_foreign _ _ ?_
      rw [GivenProgram.foreign, if_neg (by rw [hkind]; decide), if_pos hkind, hnone]
      rfl
  · next unit hkind hunit =>
    rw [if_neg (by rw [hkind]; decide), if_neg (by rw [hkind]; decide), if_pos hkind, hunit,
      Option.elim_some]
    split
    · exact (reports_buildCarry none).map fun x => ([("O", x.1), ("CO", x.2.1)], Program.carry x.2.2)
    · next c =>
      rw [hkind]
      exact (reports_buildCarry (some c)).map
        fun x => ([("O", x.1), ("CO", x.2.1)], Program.carry x.2.2)
    · next g hother =>
      have hnone := GivenProgram.carry?_eq_none (g := g) fun c hc => hother c (by rw [hc])
      refine reports_foreign _ _ ?_
      rw [GivenProgram.foreign, if_neg (by rw [hkind]; decide), if_neg (by rw [hkind]; decide), hnone]
      rfl
  · next hlut hmux hcarry =>
    have hnone : p.toldDefect r ports given = some .unsupported := by
      rw [toldDefect, if_neg hlut]
      split
      · next hkind =>
        cases hstyle : p.mux with
        | none => rfl
        | some style => exact (hmux style hkind hstyle).elim
      · split
        · next hkind =>
          cases hunit : p.carry with
          | none => rfl
          | some unit => exact (hcarry unit hkind hunit).elim
        · rfl
    rw [toldDefect] at hnone
    rw [hnone]
    exact reports_fail rfl

/-- Another defect is told than the one that is due: a program of another kind before all others, or
whatever else is wrong before that no lookup table is large enough for a multiplexer. -/
inductive Masked (p : Platform) (r : Request) (ports : List (String × Operand))
    (given : Option GivenProgram) : Prop
  | foreign (provided : p.supports r.kind) (there : given.any (·.foreign r.kind))
      (due : p.dueDefect r ports given ≠ some .program) : Masked p r ports given
  | late {n : Nat} (kind : r.kind = "MUX") (style : p.mux = some .lut)
      (size : r.size? "num_inputs" = some n) (two : 2 ≤ n)
      (wide : p.tooWide (n + selectWidth n)) (own : given.any (·.foreign r.kind) = false)
      (other : Request.misfit ports (muxPorts n) ≠ none ∨
        ∃ g ∈ given, ∃ m ∈ g.mux?, m.inputs ≠ (n : Int) ∨ m.lut = none) :
      Masked p r ports given

/-- A kind of request that is provided. -/
inductive Provided (p : Platform) (kind : String) : Prop
  | lut (is : kind = "LUT") : Provided p kind
  | mux {style : MuxStyle} (is : kind = "MUX") (found : p.mux = some style) : Provided p kind
  | carry {unit : CarryUnit} (is : kind = "carry") (found : p.carry = some unit) : Provided p kind

theorem provided_of_supports {kind : String} (h : p.supports kind) : p.Provided kind := by
  unfold supports at h
  split at h
  · exact .lut rfl
  · exact .mux rfl (Option.eq_some_of_isSome h)
  · exact .carry rfl (Option.eq_some_of_isSome h)
  · cases h

theorem defect_of_not_provided (h : p.supports r.kind = false) :
    p.toldDefect r ports given = some .unsupported ∧
      p.dueDefect r ports given = some .unsupported := by
  unfold supports at h
  split at h
  · cases h
  · next kind =>
    have hnone : p.mux = none := by simpa using h
    simp [toldDefect, dueDefect, wanted?, kind, hnone]
  · next kind =>
    have hnone : p.carry = none := by simpa using h
    simp [toldDefect, dueDefect, wanted?, kind, hnone]
  · next hlut hmux hcarry =>
    rw [toldDefect, dueDefect, wanted?, if_neg hlut, if_neg hlut, if_neg hmux, if_neg hmux,
      if_neg hcarry, if_neg hcarry]
    exact ⟨rfl, rfl⟩

theorem toldDefect_of_foreign (provided : p.Provided r.kind)
    (there : given.any (·.foreign r.kind)) : p.toldDefect r ports given = some .program := by
  rw [toldDefect, there]
  cases provided with
  | lut is =>
    rw [if_pos is]
    rfl
  | mux is found =>
    rw [if_neg (by rw [is]; decide), if_pos is, found]
    rfl
  | carry is found =>
    rw [if_neg (by rw [is]; decide), if_neg (by rw [is]; decide), if_pos is, found]
    rfl

theorem toldDefect_lut (is : r.kind = "LUT") (own : given.any (·.foreign r.kind) = false) :
    p.toldDefect r ports given = p.dueDefect r ports given := by
  rw [toldDefect, dueDefect, wanted?, own, if_pos is, if_pos is, lutDefect]
  cases r.size? "num_inputs" with
  | none => rfl
  | some n =>
    cases given with
    | none => rfl
    | some g =>
      have hown : g.lut?.isNone = false := by simpa [GivenProgram.foreign, is] using own
      cases hg : g.lut? with
      | none => simp [hg] at hown
      | some l => simp [hg, Defect.onlyIf]

theorem toldDefect_carry {unit : CarryUnit} (is : r.kind = "carry") (found : p.carry = some unit)
    (own : given.any (·.foreign r.kind) = false) :
    p.toldDefect r ports given = p.dueDefect r ports given := by
  have hlut : r.kind ≠ "LUT" := by simp [is]
  have hmux : r.kind ≠ "MUX" := by simp [is]
  rw [toldDefect, dueDefect, wanted?, own, if_neg hlut, if_neg hlut, if_neg hmux, if_neg hmux,
    if_pos is, if_pos is, found, Option.elim_some, Option.bind_some, carryDefect]
  cases r.size? "width" with
  | none => rfl
  | some w =>
    cases given with
    | none => rfl
    | some g =>
      have hown : g.carry?.isNone = false := by simpa [GivenProgram.foreign, is] using own
      cases hg : g.carry? with
      | none => simp [hg] at hown
      | some c => simp [hg, Defect.onlyIf]

theorem toldDefect_native (is : r.kind = "MUX") (style : p.mux = some .native)
    (own : given.any (·.foreign r.kind) = false) :
    p.toldDefect r ports given = p.dueDefect r ports given := by
  have hlut : r.kind ≠ "LUT" := by simp [is]
  rw [toldDefect, dueDefect, wanted?, own, if_neg hlut, if_neg hlut, if_pos is, if_pos is, style,
    Option.elim_some, Option.bind_some, muxDefect]
  cases r.size? "num_inputs" with
  | none => rfl
  | some n =>
    by_cases hn : n < 2
    · simp only [Option.elim_some, Option.bind_some, if_pos hn, decide_eq_true hn]
      rfl
    · simp only [Option.elim_some, Option.bind_some, if_neg hn, decide_eq_false hn]
      cases given with
      | none => simp
      | some g =>
        have hown : g.mux?.isNone = false := by simpa [GivenProgram.foreign, is] using own
        cases hg : g.mux? with
        | none => simp [hg] at hown
        | some m => simp [hg]

/-- A multiplexer that is built from a table tells of what is due, unless it wants a table larger
than all and something else is wrong. -/
theorem toldDefect_table_iff (is : r.kind = "MUX") (style : p.mux = some .lut)
    (own : given.any (·.foreign r.kind) = false) :
    p.toldDefect r ports given = p.dueDefect r ports given ↔
      ∀ n, r.size? "num_inputs" = some n → 2 ≤ n → p.tooWide (n + selectWidth n) →
        Request.misfit ports (muxPorts n) = none ∧
          ∀ g ∈ given, ∀ m ∈ g.mux?, m.inputs = (n : Int) ∧ m.lut ≠ none := by
  have hlut : r.kind ≠ "LUT" := by simp [is]
  rw [toldDefect, dueDefect, wanted?, own, if_neg hlut, if_neg hlut, if_pos is, if_pos is, style,
    Option.elim_some, Option.bind_some, muxDefect]
  cases r.size? "num_inputs" with
  | none => simp
  | some n =>
    by_cases hn : n < 2
    · simp only [Option.elim_some, Option.bind_some, if_pos hn, decide_eq_true hn]
      refine iff_of_true rfl fun m hm htwo => ?_
      cases hm
      omega
    · have htwo : 2 ≤ n := by omega
      have hmisfit : Request.misfit ports (muxPorts n) ≠ some .unsupported :=
        Request.misfit_ne (by decide) (by decide)
      simp only [Option.elim_some, Option.bind_some, if_neg hn, decide_eq_false hn, if_true,
        muxTableDefect]
      cases hwide : p.tooWide (n + selectWidth n) with
      | true =>
        cases hm : Request.misfit ports (muxPorts n) with
        | some k => simpa [hm, hwide, htwo] using hmisfit
        | none =>
          cases given with
          | none => simp [hwide, hm]
          | some g =>
            cases hg : g.mux? with
            | none => simp [GivenProgram.foreign, is, hg] at own
            | some m =>
              by_cases hinputs : m.inputs = n
              · cases hl : m.lut <;> simp [hg, hwide, hm, htwo, hinputs, hl]
              · simp [hg, hwide, hm, htwo, hinputs]
      | false =>
        cases given with
        | none => simp [hwide]
        | some g =>
          cases hg : g.mux? with
          | none => simp [GivenProgram.foreign, is, hg] at own
          | some m =>
            by_cases hinputs : m.inputs = n
            · cases hl : m.lut <;> simp [hg, hwide, hinputs, hl]
            · simp [hg, hwide, hinputs]

theorem Plain.lutDefect_ne (plain : p.Plain) (given : Option LutProgram) :
    p.lutDefect r ports given ≠ some .pointed := by
  refine elim_ne (by decide) fun n _ => ?_
  rw [plain.pointedTable n, Defect.onlyIf_false, orElse_none]
  exact orElse_ne (Defect.onlyIf_ne (by decide) _)
    (orElse_ne (Request.misfit_ne (by decide) (by decide)) (Defect.onlyIf_ne (by decide) _))

theorem Plain.muxDefect_ne (plain : p.Plain) (style : MuxStyle) (given : Option MuxProgram) :
    p.muxDefect style r ports given ≠ some .pointed := by
  have htable (n : Nat) : p.muxTableDefect n given ≠ some .pointed := by
    rw [muxTableDefect, plain.pointedTable, Defect.onlyIf_false, orElse_none]
    exact orElse_ne (Defect.onlyIf_ne (by decide) _)
      (orElse_ne (Defect.onlyIf_ne (by decide) _) (Defect.onlyIf_ne (by decide) _))
  refine elim_ne (by decide) fun n _ => orElse_ne (Defect.onlyIf_ne (by decide) _)
    (orElse_ne (Request.misfit_ne (by decide) (by decide))
      (orElse_ne (Defect.onlyIf_ne (by decide) _) ?_))
  split
  · exact htable n
  · simp

theorem carryDefect_ne {unit : CarryUnit} (plain : unit.chunk.pointed = false)
    (given : Option CarryProgram) : carryDefect unit r ports given ≠ some .pointed := by
  refine elim_ne (by decide) fun w _ => ?_
  rw [plain, Defect.onlyIf_false, orElse_none]
  exact orElse_ne (Request.misfit_ne (by decide) (by decide)) (Defect.onlyIf_ne (by decide) _)

/-- A platform whose numbers were all written without a point never fails to count up to one. -/
theorem Plain.toldDefect_ne (plain : p.Plain) : p.toldDefect r ports given ≠ some .pointed := by
  have hforeign : Defect.program.onlyIf (given.any (·.foreign r.kind)) ≠ some .pointed :=
    Defect.onlyIf_ne (by decide) _
  rw [toldDefect]
  split
  · exact orElse_ne hforeign (plain.lutDefect_ne _)
  split
  · exact elim_ne (by decide) fun style _ => orElse_ne hforeign (plain.muxDefect_ne style _)
  split
  · exact elim_ne (by decide) fun unit hunit =>
      orElse_ne hforeign (carryDefect_ne (plain.chunk unit hunit) _)
  · decide

theorem reports_iff {d : Option Defect} :
    (p.construct r ports given).Reports d ↔ p.toldDefect r ports given = d := by
  have htold := reports_construct p r ports given
  exact ⟨htold.unique, fun h => h ▸ htold⟩

/-- A platform tells of the defect of a request that is due, and meets a request without a defect,
unless another defect masks the due one. -/
theorem construct_reports_due_iff (p : Platform) (r : Request) (ports : List (String × Operand))
    (given : Option GivenProgram) :
    (p.construct r ports given).Reports (p.dueDefect r ports given) ↔ ¬ p.Masked r ports given := by
  rw [reports_iff]
  cases hsupports : p.supports r.kind with
  | false =>
    obtain ⟨htold, hdue⟩ : p.toldDefect r ports given = some .unsupported ∧
        p.dueDefect r ports given = some .unsupported := defect_of_not_provided hsupports
    refine iff_of_true (htold.trans hdue.symm) ?_
    rintro (⟨provided, -, -⟩ | ⟨kind, style, -⟩)
    · simp [hsupports] at provided
    · simp [supports, kind, style] at hsupports
  | true =>
    have provided := p.provided_of_supports hsupports
    cases hforeign : given.any (·.foreign r.kind) with
    | true =>
      rw [toldDefect_of_foreign provided hforeign]
      constructor
      · rintro hdue (⟨-, -, due⟩ | ⟨-, -, -, -, -, own, -⟩)
        · exact due hdue.symm
        · simp [hforeign] at own
      · intro hmasked
        by_contra hdue
        exact hmasked (.foreign hsupports hforeign (Ne.symm hdue))
    | false =>
      have hnot : ¬ given.any (·.foreign r.kind) := by simp [hforeign]
      cases provided with
      | lut is =>
        refine iff_of_true (toldDefect_lut is hforeign) ?_
        rintro (⟨-, there, -⟩ | ⟨kind, -⟩)
        · exact hnot there
        · simp [is] at kind
      | carry is found =>
        refine iff_of_true (toldDefect_carry is found hforeign) ?_
        rintro (⟨-, there, -⟩ | ⟨kind, -⟩)
        · exact hnot there
        · simp [is] at kind
      | @mux style is found =>
        cases style with
        | native =>
          refine iff_of_true (toldDefect_native is found hforeign) ?_
          rintro (⟨-, there, -⟩ | ⟨-, style, -⟩)
          · exact hnot there
          · simp [found] at style
        | lut =>
          rw [toldDefect_table_iff is found hforeign]
          constructor
          · rintro hall (⟨-, there, -⟩ | @⟨n, -, -, size, two, wide, -, other⟩)
            · exact hnot there
            · obtain ⟨hwired, hgiven⟩ := hall n size two wide
              rcases other with hwrong | ⟨g, hg, m, hm, hbad⟩
              · exact hwrong hwired
              · obtain ⟨hinputs, htable⟩ := hgiven g hg m hm
                exact hbad.elim (absurd hinputs) htable
          · intro hmasked n size two wide
            have hlate := fun other => hmasked (.late is found size two wide hforeign other)
            constructor
            · by_contra hwrong
              exact hlate (.inl hwrong)
            · intro g hg m hm
              constructor
              · by_contra hinputs
                exact hlate (.inr ⟨g, hg, m, hm, .inl hinputs⟩)
              · exact fun htable => hlate (.inr ⟨g, hg, m, hm, .inr htable⟩)

/-- Five inputs and three select bits are too many for every lookup table, but what is told is that
no port is wired. -/
theorem construct_masks_wide_mux :
    Platform.generic.dueDefect (.mux 5) [] none = some .unsupported ∧
      ¬ (Platform.generic.construct (.mux 5) [] none).Reports (some .unsupported) := by
  rw [reports_iff]
  decide

end Platform

end CircuitSketch
