import CircuitSketch.Proofs.Interface.Issued
import Mathlib.Data.Nat.Log

/-!
# Multiplexers of both styles

A multiplexer is a lookup in the list of its inputs, or a lookup table that reads its inputs and
then the bits that select one of them. The bits can spell more numbers than there are inputs unless
there are as many inputs as a power of two: the list has zero there, and so has a table that is
programmed to. Then no platform tells the styles apart.
-/
namespace CircuitSketch

/-- The bits that select one of several inputs are as many as it takes to number them. -/
theorem selectWidth_eq_clog {n : Nat} (two : 2 ≤ n) : selectWidth n = Nat.clog 2 n := by
  refine eq_of_forall_ge_iff fun w => ?_
  rw [Nat.clog_le_iff_le_pow (by omega), selectWidth, if_neg (by omega), Nat.succ_le_iff,
    Nat.log2_lt (by omega)]
  omega

/-- The input that is selected by the bits behind `count` inputs, and zero where there is none. -/
def selectInput (count : Nat) (bits : List Bool) : Bool :=
  let s := Word.toNat (bits.drop count)
  if s < count then bits.getD s false else false

theorem selectInput_append (bits select : List Bool) :
    selectInput bits.length (bits ++ select) = bits.getD (Word.toNat select) false := by
  rw [selectInput, List.drop_left]
  simp only [List.getD_eq_getElem?_getD]
  split
  · next h => rw [List.getElem?_append_left h]
  · next h =>
    rw [List.getElem?_eq_none (by omega)]
    rfl

/-- A list of single bits has the bit that is looked up, and zero past its end. -/
theorem lookupItem_bits {bits : List Bool} (ne : bits ≠ []) (index : List Bool) :
    lookupItem (bits.map fun b => [b]) index = [bits.getD (Word.toNat index) false] := by
  obtain ⟨b, rest, rfl⟩ := List.exists_cons_of_ne_nil ne
  rw [lookupItem, constants?_bool]
  simp only [List.getD_eq_getElem?_getD, List.getElem?_map]
  cases (b :: rest)[Word.toNat index]? <;> rfl

/-- A lookup in a list of single bits. -/
theorem Expr.eval_lookup {c : Context Bool} {t t' : Nat} {sh sh' : Shape} {xs : List Expr}
    {s : Expr} {bits index : List Bool} (ne : xs ≠ [])
    (hxs : List.Forall₂ (fun x b => eval c x = .ok (.word [b])) xs bits)
    (hs : eval c s = .ok (.word index)) :
    eval c (.node t .lookup sh [.node t' .list sh' xs, s]) =
      .ok (.word [bits.getD (Word.toNat index) false]) := by
  have hlist : eval c (.node t' .list sh' xs) = .ok (.list (bits.map fun b => [b])) := by
    have hargs : List.Forall₂ (fun x v => eval c x = .ok v) xs
        ((bits.map fun b => [b]).map .word) := by
      simpa only [List.forall₂_map_right_iff] using hxs
    rw [eval_node_of_args hargs, Op.eval, Value.words_map_word]
    rfl
  have hne : bits ≠ [] := by
    rintro rfl
    exact ne (List.forall₂_nil_right_iff.mp hxs)
  rw [eval_node_of_args (.cons hlist (.cons hs .nil)), Op.eval, lookupItem_bits hne]

namespace Platform

open CircuitSketch.Expr Build

section Wiring

variable {xs : List Expr} {s : Expr} {ports : List (String × Operand)} {r : Request}

/-- The words of a multiplexer under the names of its ports. -/
def selectPorts (xs : List Expr) (s : Expr) : List (String × Operand) :=
  numberedPorts xs ++ [("S", .expr s)]

theorem nodup_muxNames (n : Nat) :
    ((List.range n).map Primitive.inputName ++ ["S"]).Nodup := by
  refine List.nodup_append.mpr ⟨nodup_inputNames n, by simp, ?_⟩
  intro a ha b hb
  obtain ⟨i, -, rfl⟩ := List.mem_map.mp ha
  obtain rfl := List.mem_singleton.mp hb
  intro h
  have hlist := congrArg String.toList h
  rw [Primitive.toList_inputName] at hlist
  simp at hlist

theorem wire_selectPorts (hports : ports.Perm (selectPorts xs s))
    (bits : ∀ x ∈ xs, x.shape = .word 1) (hs : s.shape = .word (selectWidth xs.length)) :
    r.wire ports (muxPorts xs.length) = .ok (xs ++ [s]) := by
  have hgiven : selectPorts xs s = ((List.range xs.length).map Primitive.inputName ++ ["S"]).zip
      ((xs ++ [s]).map Operand.expr) := by
    rw [selectPorts, numberedPorts_eq, List.map_append, List.zip_append (by simp)]
    rfl
  have hexpected : muxPorts xs.length =
      ((List.range xs.length).map Primitive.inputName ++ ["S"]).zip
        (List.replicate xs.length 1 ++ [selectWidth xs.length]) := by
    rw [muxPorts, inputPorts_eq, List.zip_append (by simp)]
    rfl
  rw [hgiven] at hports
  refine Request.wire_of_perm hports ?_ ?_
  · rw [List.map_fst_zip (by simp)]
    exact nodup_muxNames _
  · rw [hexpected, Request.wire_eq_ok (nodup_muxNames _) (by simp) (by simp)]
    refine ⟨rfl, ?_⟩
    have hinputs : xs.map Expr.shape = List.replicate xs.length (.word 1) := by
      rw [List.eq_replicate_iff]
      exact ⟨by simp, fun t ht => by obtain ⟨x, hx, rfl⟩ := List.mem_map.mp ht; exact bits x hx⟩
    simp [hinputs, hs]

end Wiring

variable {on : Platform → Prop} {p : Platform} {n : Nat} {ports : List (String × Operand)}
  {next last : Nat} {outs : List (String × Expr)} {given : Option Program} {d : Program}

theorem positive_mux {count : Nat} :
    (Request.mux n).positive "num_inputs" = .ok count ↔ count = n ∧ 1 ≤ n :=
  Request.positive_count rfl

/-- A program for a multiplexer has its number of inputs. -/
theorem Issued.mux (h : Issued on (.mux n) d) : ∃ m : MuxProgram, d = .mux m ∧ m.inputs = n := by
  obtain ⟨p, ports, next, last, outs, -, met⟩ := h.made
  cases met_of_construct met with
  | lut kind => simp [Request.mux] at kind
  | carry kind => simp [Request.mux] at kind
  | @mux style g out m last kind found handed built =>
    obtain rfl : g = none := by simpa using handed.symm
    obtain ⟨count, words, hcount, -, -, -, hbuilt⟩ := of_buildMux built
    obtain ⟨rfl, -⟩ := positive_mux.mp hcount
    refine ⟨m, rfl, ?_⟩
    cases hbuilt with
    | native is made => rfl
    | new is fresh cut placed => rfl
    | again is handed => cases handed

/-- A program for a multiplexer that is built from a lookup table has a table for the inputs and the
bits that select one. -/
theorem Issued.muxTable (h : Issued (fun p => p.mux = some .lut) (.mux n) d) :
    ∃ l : LutProgram, d = .mux ⟨n, some l⟩ ∧ l.inputs = ((n + selectWidth n : Nat) : Int) ∧
      l.Complete := by
  obtain ⟨p, ports, next, last, outs, style, met⟩ := h.made
  cases met_of_construct met with
  | lut kind => simp [Request.mux] at kind
  | carry kind => simp [Request.mux] at kind
  | @mux style' g out m last kind found handed built =>
    obtain rfl : g = none := by simpa using handed.symm
    obtain rfl : MuxStyle.lut = style' := Option.some.inj (style.symm.trans found)
    obtain ⟨count, words, hcount, -, hwired, -, hbuilt⟩ := of_buildMux built
    obtain ⟨rfl, -⟩ := positive_mux.mp hcount
    obtain ⟨hlen, -, -, hselect⟩ := of_wire_mux hwired
    cases hbuilt with
    | native is => cases is
    | again is handed => cases handed
    | @new selectBits l _ _ _ is fresh cut placed =>
      have hspec := lut_spec (by simp) placed
      refine ⟨l, rfl, ?_, hspec.complete⟩
      rw [hspec.inputs_eq, List.length_append, hlen,
        ← (of_bits hselect cut).2.length_eq, List.length_range]

variable {xs : List Expr} {s : Expr} {style : MuxStyle}

/-- A request for a multiplexer between single bits is met, anew or with a program for as many
inputs. One that is built from a lookup table needs one that is large enough, of a size that can be
counted up to. -/
theorem exists_construct_mux (found : p.mux = some style) (two : 2 ≤ xs.length)
    (hports : ports.Perm (selectPorts xs s)) (bits : ∀ x ∈ xs, x.shape = .word 1)
    (hs : s.shape = .word (selectWidth xs.length))
    (fits : style = .lut → xs.length + selectWidth xs.length ≤ p.maxLut)
    (whole : style = .lut → p.pointedTable (xs.length + selectWidth xs.length) = false)
    (hgiven : ∀ g ∈ given, ∃ m : MuxProgram, g = .mux m ∧ m.inputs = xs.length ∧
      (style = .lut → ∃ l ∈ m.lut, l.inputs = ((xs.length + selectWidth xs.length : Nat) : Int)))
    (next : Nat) : ∃ outs d last,
      p.construct (.mux xs.length) ports (given.map .program) next = .ok ((outs, d), last) := by
  have hwired : (Request.mux xs.length).wire ports (muxPorts xs.length) = .ok (xs ++ [s]) :=
    wire_selectPorts hports bits hs
  have hcount : (Request.mux xs.length).size? "num_inputs" = some xs.length :=
    Datum.positive?_int _ (by omega)
  have hnarrow : decide (xs.length < 2) = false := decide_eq_false (by omega)
  have htable : style = .lut → p.tooWide (xs.length + selectWidth xs.length) = false := by
    intro is
    obtain ⟨size, hsize⟩ := exists_fittingLut (by omega) (fits is)
    rw [tooWide, hsize]
    rfl
  have htold : p.toldDefect (.mux xs.length) ports (given.map .program) = none := by
    rw [toldDefect, if_neg (by simp [Request.mux]), if_pos (by rfl), found, Option.elim_some,
      muxDefect, hcount, Option.elim_some, Request.misfit_eq_none hwired, hnarrow]
    cases given with
    | none => cases style <;> simp [muxTableDefect, htable, whole]
    | some g =>
      obtain ⟨m, rfl, hm, hl⟩ := hgiven g rfl
      cases style with
      | native => simp [GivenProgram.foreign, GivenProgram.mux?, hm, Request.mux]
      | lut =>
        obtain ⟨l, hlut, hinputs⟩ := hl rfl
        simp [GivenProgram.foreign, GivenProgram.mux?, hm, Request.mux, muxTableDefect, htable,
          whole, Option.mem_def.mp hlut, hinputs]
  obtain ⟨⟨outs, d⟩, last, h⟩ := (reports_construct p _ ports _ next).1 htold
  exact ⟨outs, d, last, h⟩

/-- The lookup table that a multiplexer is built from reads the inputs and then the bits of the word
that selects one. -/
theorem tableOutput_of_construct {m : MuxProgram} {l : LutProgram} (found : p.mux = some .lut)
    (hports : ports.Perm (selectPorts xs s)) (bits : ∀ x ∈ xs, x.shape = .word 1)
    (hs : s.shape = .word (selectWidth xs.length)) (table : m.lut = some l) (complete : l.Complete)
    (h : p.construct (.mux xs.length) ports (given.map .program) next =
      .ok ((outs, .mux m), last)) :
    ∃ out selectBits, outs = [("O", out)] ∧
      List.Forall₂ (fun i y => Cut s i i y) (List.range (selectWidth xs.length)) selectBits ∧
        LutOutput (xs ++ selectBits) l out := by
  cases met_of_construct h with
  | @mux style g out m last kind found' handed built =>
    obtain rfl : MuxStyle.lut = style := Option.some.inj (found.symm.trans found')
    obtain ⟨count, words, hcount, -, hwired, -, hbuilt⟩ := of_buildMux built
    obtain ⟨rfl, -⟩ := positive_mux.mp hcount
    obtain rfl : xs ++ [s] = words :=
      Except.ok.inj ((wire_selectPorts hports bits hs).symm.trans hwired)
    cases hbuilt with
    | native is => cases is
    | new is fresh cut placed =>
      obtain rfl := Option.some.inj table
      rw [List.take_left, List.getLastD_concat] at *
      exact ⟨out, _, rfl, (of_bits hs cut).2, (lut_spec (by simp) placed).output⟩
    | again is handed' table' cut placed =>
      obtain rfl := Option.some.inj (table.symm.trans table')
      rw [List.take_left, List.getLastD_concat] at *
      exact ⟨out, _, rfl, (of_bits hs cut).2, (lut_spec (by simpa using complete) placed).output⟩

/-- Fixed hardware looks the word that selects up in the list of the inputs. -/
theorem nativeOutput_of_construct (found : p.mux = some .native)
    (hports : ports.Perm (selectPorts xs s)) (bits : ∀ x ∈ xs, x.shape = .word 1)
    (hs : s.shape = .word (selectWidth xs.length))
    (h : p.construct (.mux xs.length) ports (given.map .program) next = .ok ((outs, d), last)) :
    ∃ t sh, outs = [("O", .node (t + 1) .lookup (.word 1) [.node t .list sh xs, s])] := by
  cases met_of_construct h with
  | lut kind => simp [Request.mux] at kind
  | carry kind => simp [Request.mux] at kind
  | @mux style g out m last kind found' handed built =>
    obtain rfl : MuxStyle.native = style := Option.some.inj (found.symm.trans found')
    obtain ⟨count, words, hcount, htwo, hwired, -, hbuilt⟩ := of_buildMux built
    obtain ⟨rfl, -⟩ := positive_mux.mp hcount
    obtain rfl : xs ++ [s] = words :=
      Except.ok.inj ((wire_selectPorts hports bits hs).symm.trans hwired)
    cases hbuilt with
    | new is => cases is
    | again is => cases is
    | native is made =>
      cases made
      rw [List.take_left, List.getLastD_concat]
      have hne : xs ≠ [] := List.ne_nil_of_length_pos (by omega)
      obtain ⟨x, rest, rfl⟩ := List.exists_cons_of_ne_nil hne
      exact ⟨_, _, by rw [← width_of_shape (bits x (by simp))]; rfl⟩

/-- A multiplexer that is built from a lookup table and one that is fixed hardware can stand for one
another. With the table programmed to the selected input, and zero past the last one, both yield the
input that is selected, and zero past the last one. The size of the lookup table has to be one that
can be counted up to. -/
theorem construct_mux_interchangeable {q : Platform} {given' : Option Program}
    (hp : p.mux = some .lut) (hq : q.mux = some .native) (two : 2 ≤ xs.length)
    (fits : xs.length + Nat.clog 2 xs.length ≤ p.maxLut)
    (whole : p.pointedTable (xs.length + Nat.clog 2 xs.length) = false)
    (hports : ports.Perm (selectPorts xs s)) (hxs : ∀ x ∈ xs, x.WellFormed ∧ x.shape = .word 1)
    (hs : s.WellFormed ∧ s.shape = .word (Nat.clog 2 xs.length))
    (hgiven : ∀ g ∈ given, Issued (fun p => p.mux = some .lut) (.mux xs.length) g)
    (hgiven' : ∀ g ∈ given', Issued (fun _ => True) (.mux xs.length) g) (next next' : Nat) :
    ∃ out l last out' d' last',
      p.construct (.mux xs.length) ports (given.map .program) next =
        .ok (([("O", out)], .mux ⟨xs.length, some l⟩), last) ∧
      q.construct (.mux xs.length) ports (given'.map .program) next' =
        .ok (([("O", out')], d'), last') ∧
      ∀ (env : Valuation) (σ : Assignment) (bits : List Bool) (y : Nat),
        List.Forall₂ (fun x b => x.interpret env σ Primitive.standard = .ok b.toNat) xs bits →
          s.interpret env σ Primitive.standard = .ok y →
            σ.Programs l (selectInput xs.length) →
              out.interpret env σ Primitive.standard = .ok (bits.getD y false).toNat ∧
                out'.interpret env σ Primitive.standard = .ok (bits.getD y false).toNat := by
  rw [← selectWidth_eq_clog two] at fits whole hs
  have hbits : ∀ x ∈ xs, x.shape = .word 1 := fun x hx => (hxs x hx).2
  obtain ⟨outs, d, last, h⟩ := exists_construct_mux hp two hports hbits hs.2 (fun _ => fits)
    (fun _ => whole) (fun g hg => by
      obtain ⟨l, rfl, hl, -⟩ := (hgiven g hg).muxTable
      exact ⟨_, rfl, rfl, fun _ => ⟨l, rfl, hl⟩⟩) next
  obtain ⟨outs', d', last', h'⟩ := exists_construct_mux hq two hports hbits hs.2 nofun nofun
    (fun g hg => (hgiven' g hg).mux.imp fun m hm => ⟨hm.1, hm.2, nofun⟩) next'
  obtain ⟨l, rfl, hinputs, hcomplete⟩ := (Issued.met hp hgiven h).muxTable
  obtain ⟨out, selectBits, rfl, hcuts, houtput⟩ :=
    tableOutput_of_construct hp hports hbits hs.2 rfl hcomplete h
  obtain ⟨t, sh, rfl⟩ := nativeOutput_of_construct hq hports hbits hs.2 h'
  refine ⟨out, l, last, _, d', last', h, h', fun env σ bits y hvalues hselect programmed => ?_⟩
  have heval := eval_bits_of_interpret (fun x hx => (hxs x hx).1) hbits hvalues
  obtain ⟨index, hindex, hlen, rfl⟩ := exists_bits_of_interpret hs.1 hselect
  rw [width_of_shape hs.2] at hlen
  constructor
  · have hsettles := Context.settles_concrete env hcomplete.ones
      (programmed.covers hcomplete.nodup)
    have hall := List.rel_append heval (eval_all_cuts hcuts hindex hs.2 hlen)
    have hlength : ((bits ++ index).length : Int) = l.inputs := by
      rw [hinputs, List.length_append, hlen, heval.length_eq]
    have hout := houtput.eval_of_settles hsettles hall
    rw [programmed.computes hcomplete _ hlength, heval.length_eq, selectInput_append] at hout
    exact interpret_bit_of_eval houtput.shape hout
  · have hne : xs ≠ [] := List.ne_nil_of_length_pos (by omega)
    exact interpret_bit_of_eval rfl (eval_lookup hne heval hindex)

/-- Three inputs, of which the third is selected, and after it none. -/
theorem construct_mux_interchangeable_three : ∃ out l last out' d' last' σ,
    generic.construct (.mux 3)
      (selectPorts [input 0 "a" 1, input 1 "b" 1, input 2 "c" 1] (input 3 "s" 2)) none 4 =
        .ok (([("O", out)], .mux ⟨3, some l⟩), last) ∧
    xilinxUltrascale.construct (.mux 3)
      (selectPorts [input 0 "a" 1, input 1 "b" 1, input 2 "c" 1] (input 3 "s" 2)) none 4 =
        .ok (([("O", out')], d'), last') ∧
    σ.Programs l (selectInput 3) ∧
    (∀ o ∈ [out, out'], o.interpret [("a", 0), ("b", 0), ("c", 1), ("s", 2)] σ Primitive.standard =
      .ok 1) ∧
    ∀ o ∈ [out, out'], o.interpret [("a", 1), ("b", 1), ("c", 1), ("s", 3)] σ Primitive.standard =
      .ok 0 := by
  have hxs : ∀ x ∈ [input 0 "a" 1, input 1 "b" 1, input 2 "c" 1],
      x.WellFormed ∧ x.shape = .word 1 := by
    intro x hx
    simp only [List.mem_cons, List.not_mem_nil, or_false] at hx
    rcases hx with rfl | rfl | rfl <;> exact ⟨wellFormed_input Nat.one_pos, rfl⟩
  have hclog : Nat.clog 2 3 = 2 := by decide
  have hs : (input 3 "s" 2).WellFormed ∧ (input 3 "s" 2).shape = .word (Nat.clog 2 3) :=
    ⟨wellFormed_input Nat.two_pos, by rw [hclog]; rfl⟩
  obtain ⟨out, l, last, out', d', last', h, h', hsame⟩ :=
    construct_mux_interchangeable (p := generic) (q := xilinxUltrascale) rfl rfl (by decide)
      (by decide) (by decide) (.refl _) hxs hs Issued.of_mem_none Issued.of_mem_none 4 4
  have issued : Issued (fun p => p.mux = some .lut) (.mux 3) (.mux ⟨3, some l⟩) :=
    .met rfl Issued.of_mem_none h
  obtain ⟨_, ⟨rfl⟩, -, hcomplete⟩ := issued.muxTable
  obtain ⟨σ, programmed⟩ := Assignment.exists_programs hcomplete (selectInput 3)
  have htwo := hsame [("a", 0), ("b", 0), ("c", 1), ("s", 2)] σ [false, false, true] 2
    (.cons (interpret_input rfl (by decide)) (.cons (interpret_input rfl (by decide))
      (.cons (interpret_input rfl (by decide)) .nil))) (interpret_input rfl (by decide)) programmed
  have hthree := hsame [("a", 1), ("b", 1), ("c", 1), ("s", 3)] σ [true, true, true] 3
    (.cons (interpret_input rfl (by decide)) (.cons (interpret_input rfl (by decide))
      (.cons (interpret_input rfl (by decide)) .nil))) (interpret_input rfl (by decide)) programmed
  exact ⟨out, _, last, out', d', last', σ, h, h', programmed, by simpa using htwo,
    by simpa using hthree⟩

end Platform
end CircuitSketch
