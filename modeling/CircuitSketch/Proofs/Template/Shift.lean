import CircuitSketch.Proofs.Template.Stage

/-!
# Shifts

Every stage moves the row by its distance if it is selected, so the stages together move the first
input by the amount. A multiplexer's program is issued once and used by all stages; the reduction
that saturates the shift belongs to the last one.
-/
namespace CircuitSketch

open CircuitSketch.Expr Build

/-- The parts of a shift are complete. -/
structure ShiftProgram.Complete (s : ShiftProgram) : Prop where
  mux : ∀ l ∈ s.mux.lut, l.Complete
  saturate : ∀ r ∈ s.saturate, r.Complete

namespace Template

variable {p : Platform} {fill : Fill} {zero sign amount a : Expr} {current shifted outs : List Expr}
  {width distance stages stage next mid last : Nat} {mux mux' : Option MuxProgram}
  {saturate saturate' : Option ReductionProgram}

/-- The bits that move to the positions of a row. -/
structure ShiftedRowSpec (fill : Fill) (zero sign : Expr) (current : List Expr)
    (width distance next : Nat) (shifted : List Expr) (last : Nat) : Prop where
  length : shifted.length = width
  shape : ∀ x ∈ shifted, x.shape = .word 1
  sketched : Sketched (zero :: sign :: current) [] [] next last shifted
  eval : ∀ (env : Valuation) (τ : Hole → Bool) (signed down edge : Bool) (row : List Bool),
    fill.admits signed → (∀ x ∈ shifted, Steered fill signed down τ x) →
      eval (.settled env τ) zero = .ok (.word [false]) →
        eval (.settled env τ) sign = .ok (.word [edge]) →
          List.Forall₂ (fun x b => eval (.settled env τ) x = .ok (.word [b])) current row →
            List.Forall₂ (fun x b => eval (.settled env τ) x = .ok (.word [b])) shifted
              (Word.moved down (signed && edge) row distance)

theorem shiftedRow_spec (hconst : zero.isConst) (hzero : zero.shape = .word 1)
    (hsign : sign.shape = .word 1) (hcurrent : Working width current) (hdistance : 0 < distance)
    (h : (List.range width).mapM (shiftedBit fill zero sign current distance) next =
      .ok (shifted, last)) :
    ShiftedRowSpec fill zero sign current width distance next shifted last := by
  have hspec : ∀ i ∈ List.range width, ∀ s out t,
      shiftedBit fill zero sign current distance i s = .ok (out, t) →
        ShiftedSpec fill zero sign current distance i s out t := fun i hi s out t hout =>
    shiftedBit_spec hconst hzero hsign hcurrent hdistance (List.mem_range.mp hi) hout
  obtain ⟨hle, hall⟩ := of_mapM h fun i hi s out t hout =>
    (hspec i hi s out t hout).made.sketched.le
  have hmade : List.Forall₂ (fun i x => ∃ s t, next ≤ s ∧ t ≤ last ∧
      ShiftedSpec fill zero sign current distance i s x t) (List.range width) shifted :=
    forall₂_of_mem hall fun i hi x ⟨s, t, hs, ht, hx⟩ => ⟨s, t, hs, ht, hspec i hi s x t hx⟩
  refine ⟨by simpa using hall.length_eq.symm, fun x hx => ?_, .of_forall hle fun x hx => ?_,
    fun env τ signed down edge row hadmits hsteer hz hs hrow => ?_⟩
  · obtain ⟨i, -, s, t, -, -, hx⟩ := exists_of_forall₂_right hmade hx
    exact hx.made.shape
  · obtain ⟨i, -, s, t, hs, ht, hx⟩ := exists_of_forall₂_right hmade hx
    exact ⟨s, t, hs, ht, hx.made.sketched⟩
  · have hwidth : row.length = width := hrow.length_eq.symm.trans hcurrent.length
    rw [Word.moved, hwidth, List.forall₂_map_right_iff]
    refine List.forall₂_iff_get.mpr ⟨by simpa using hall.length_eq.symm, fun i h1 h2 => ?_⟩
    obtain ⟨s, t, -, -, hx⟩ := hmade.get h2 h1
    have hvalue := hx.eval env τ signed down edge row hadmits (hsteer _ (List.get_mem ..)) hz hs hrow
    exact hvalue

theorem succeeds_shiftedRow (fill : Fill) (zero sign : Expr) (current : List Expr)
    (width distance : Nat) :
    Succeeds ((List.range width).mapM (shiftedBit fill zero sign current distance)) :=
  succeeds_mapM fun i _ => succeeds_shiftedBit fill zero sign current distance i

/-- What every stage reads beside the row: a constant zero, the sign, and the amount. -/
structure StageInputs (zero sign amount : Expr) (width : Nat) : Prop where
  pos : 0 < width
  const : zero.isConst
  zero_shape : zero.shape = .word 1
  sign_shape : sign.shape = .word 1
  amount_shape : amount.shape = .word width

/-- The stages of a shift from one on, `stages` of them. -/
structure StagesSpec (p : Platform) (fill : Fill) (zero sign amount : Expr)
    (width stages stage : Nat) (current : List Expr) (mux : Option MuxProgram)
    (saturate : Option ReductionProgram) (next : Nat) (outs : List Expr)
    (mux' : Option MuxProgram) (saturate' : Option ReductionProgram) (last : Nat) : Prop where
  kept : ∀ g ∈ mux, mux' = some g
  placed : 0 < stages → mux'.isSome
  idle : stages = 0 → saturate' = saturate
  muxComplete : MuxComplete mux'
  complete : ∀ s ∈ saturate', s.Complete
  length : outs.length = width
  shape : ∀ o ∈ outs, o.shape = .word 1
  sketched : Sketched (zero :: sign :: amount :: current) (muxHoles mux ++ saturateHoles saturate)
    (muxHoles mux' ++ saturateHoles saturate') next last outs
  uses : ∀ x ∈ current, x ∈ preorderAll outs
  muxNeeded : MuxNeeded p mux → MuxNeeded p mux'
  needed : 0 < stages → SaturateNeeded p (width - (stage + stages - 1)) saturate →
    SaturateNeeded p (width - (stage + stages - 1)) saturate'
  wires : 0 < stages → MuxNeeded p mux → SaturateNeeded p (width - (stage + stages - 1)) saturate →
    ∀ k ∈ muxHoles mux' ++ saturateHoles saturate', .hole k ∈ preorderAll outs
  eval : ∀ (env : Valuation) (τ : Hole → Bool) (signed down edge : Bool) (ys row : List Bool),
    fill.admits signed → (∀ x ∈ outs, Steered fill signed down τ x) → Multiplexes τ mux' →
      Saturates τ saturate' → eval (.settled env τ) zero = .ok (.word [false]) →
        eval (.settled env τ) sign = .ok (.word [edge]) →
          eval (.settled env τ) amount = .ok (.word ys) → ys.length = width →
            List.Forall₂ (fun x b => eval (.settled env τ) x = .ok (.word [b])) current row →
              List.Forall₂ (fun x b => eval (.settled env τ) x = .ok (.word [b])) outs
                (Word.staged down (signed && edge) ys stages stage row)

theorem stagesSpec_nil (hmux : MuxComplete mux) (hsaturate : ∀ s ∈ saturate, s.Complete)
    (hcurrent : Working width current) :
    StagesSpec p fill zero sign amount width 0 stage current mux saturate next current mux saturate
      next where
  kept _ hg := hg
  placed h := absurd h (Nat.lt_irrefl 0)
  idle _ := rfl
  muxComplete := hmux
  complete := hsaturate
  length := hcurrent.length
  shape := hcurrent.shape
  sketched := ⟨le_rfl, fun _ hk => .inl hk, fun x hx => .operand (by simp [hx])⟩
  uses x hx := mem_preorderAll_of_mem hx
  muxNeeded h := h
  needed h := absurd h (Nat.lt_irrefl 0)
  wires h := absurd h (Nat.lt_irrefl 0)
  eval _ _ _ _ _ _ _ _ _ _ _ _ _ _ _ h := h

/-- Whatever occurs in the row that the stages start from occurs in the one that they leave. -/
theorem StagesSpec.uses_all (h : StagesSpec p fill zero sign amount width stages stage current mux
    saturate next outs mux' saturate' last) {x : Expr} (hx : x ∈ preorderAll current) :
    x ∈ preorderAll outs := by
  obtain ⟨y, hy, hxy⟩ := mem_preorderAll.mp hx
  exact mem_preorderAll_trans hxy (h.uses y hy)

section Stage

variable {select : Expr} {row : List Expr} {mux₁ : Option MuxProgram}
  {saturate₁ : Option ReductionProgram} {t₁ t₂ t₃ : Nat}

/-- One stage: what selects it, the bits that move, and the multiplexers that take them. -/
structure StageSpec (p : Platform) (fill : Fill) (zero sign amount : Expr) (width stages stage : Nat)
    (current : List Expr) (mux : Option MuxProgram) (saturate : Option ReductionProgram)
    (next : Nat) (select : Expr) (shifted row : List Expr) (mux₁ : Option MuxProgram)
    (saturate₁ : Option ReductionProgram) (last : Nat) : Prop where
  working : Working width current
  steps : ∃ t₁ t₂, SelectSpec p amount width stage (stages == 0) saturate next select saturate₁ t₁ ∧
    ShiftedRowSpec fill zero sign current width (twoPow stage) t₁ shifted t₂ ∧
      MuxBitsSpec p select (current.zip shifted) mux t₂ row mux₁ last

variable (h : StageSpec p fill zero sign amount width stages stage current mux saturate next select
  shifted row mux₁ saturate₁ mid)

include h

namespace StageSpec

theorem map_fst : (current.zip shifted).map Prod.fst = current := by
  obtain ⟨t₁, t₂, -, hshifted, -⟩ := h.steps
  exact List.map_fst_zip (by rw [hshifted.length, h.working.length])

theorem map_snd : (current.zip shifted).map Prod.snd = shifted := by
  obtain ⟨t₁, t₂, -, hshifted, -⟩ := h.steps
  exact List.map_snd_zip (by rw [hshifted.length, h.working.length])

theorem length : row.length = width := by
  obtain ⟨t₁, t₂, -, -, hrow⟩ := h.steps
  rw [hrow.length, ← List.length_map Prod.fst, h.map_fst, h.working.length]

theorem next_working : Working width row := by
  obtain ⟨t₁, t₂, -, -, hrow⟩ := h.steps
  exact ⟨h.length, hrow.shape, fun _ => hrow.proper⟩

theorem pairs_ne (hwidth : 0 < width) : current.zip shifted ≠ [] := by
  obtain ⟨t₁, t₂, -, hshifted, -⟩ := h.steps
  refine List.ne_nil_of_length_pos ?_
  rw [List.length_zip, hshifted.length, h.working.length]
  omega

theorem uses : ∀ x ∈ current ++ shifted, x ∈ preorderAll row := by
  obtain ⟨t₁, t₂, -, -, hrow⟩ := h.steps
  intro x hx
  rw [List.mem_append] at hx
  rcases hx with hx | hx
  · rw [← h.map_fst] at hx
    obtain ⟨q, hq, rfl⟩ := List.mem_map.mp hx
    exact hrow.uses q hq q.1 (by simp)
  · rw [← h.map_snd] at hx
    obtain ⟨q, hq, rfl⟩ := List.mem_map.mp hx
    exact hrow.uses q hq q.2 (by simp)

theorem kept : ∀ g ∈ mux, mux₁ = some g := by
  obtain ⟨t₁, t₂, -, -, hrow⟩ := h.steps
  exact hrow.kept

theorem placed (hwidth : 0 < width) : mux₁.isSome := by
  obtain ⟨t₁, t₂, -, -, hrow⟩ := h.steps
  exact hrow.placed (h.pairs_ne hwidth)

theorem muxNeeded : MuxNeeded p mux → MuxNeeded p mux₁ := by
  obtain ⟨t₁, t₂, -, -, hrow⟩ := h.steps
  exact hrow.needed

theorem muxComplete : MuxComplete mux₁ := by
  obtain ⟨t₁, t₂, -, -, hrow⟩ := h.steps
  exact hrow.complete

theorem complete : ∀ s ∈ saturate₁, s.Complete := by
  obtain ⟨t₁, t₂, hselect, -, -⟩ := h.steps
  exact hselect.complete

theorem uses_select (hwidth : 0 < width) : select ∈ preorderAll row := by
  obtain ⟨t₁, t₂, -, -, hrow⟩ := h.steps
  obtain ⟨q, hq⟩ := List.exists_mem_of_ne_nil _ (h.pairs_ne hwidth)
  exact hrow.uses q hq select (by simp)

theorem sketched : Sketched (zero :: sign :: amount :: current)
    (muxHoles mux ++ saturateHoles saturate)
    ((if stages == 0 then saturateHoles saturate₁ else []) ++ muxHoles mux₁) next mid row := by
  obtain ⟨t₁, t₂, hselect, hshifted, hrow⟩ := h.steps
  have hrow' := hrow.sketched
  rw [h.map_fst, h.map_snd] at hrow'
  have hbits : Sketched (zero :: sign :: amount :: current)
      (muxHoles mux ++ saturateHoles saturate)
      (if stages == 0 then saturateHoles saturate₁ else []) next t₂ (select :: shifted) :=
    hselect.sketched.step hshifted.sketched (by simp) (by simp) (by simp) (by simp)
      (fun x hx => by simp only [List.mem_cons, List.mem_append] at hx ⊢; tauto)
      (fun x hx => by simp only [List.mem_cons, List.mem_append] at hx ⊢; tauto)
  refine hbits.step hrow' (List.Subset.refl _) (fun k hk => by simp [hk]) (by simp)
    (List.Subset.refl _) (fun x hx => ?_) (fun x hx => by simp [hx])
  simp only [List.cons_append, List.mem_cons, List.mem_append] at hx ⊢
  tauto

theorem eval {env : Valuation} {τ : Hole → Bool} {signed down edge : Bool} {ys values : List Bool}
    (hadmits : fill.admits signed) (hsteer : ∀ x ∈ row, Steered fill signed down τ x)
    (hmux : Multiplexes τ mux₁) (hsaturate : stages = 0 → Saturates τ saturate₁)
    (hz : Expr.eval (.settled env τ) zero = .ok (.word [false]))
    (hs : Expr.eval (.settled env τ) sign = .ok (.word [edge]))
    (hy : Expr.eval (.settled env τ) amount = .ok (.word ys)) (hlen : ys.length = width)
    (hvalues : List.Forall₂ (fun x b => Expr.eval (.settled env τ) x = .ok (.word [b])) current
      values) :
    List.Forall₂ (fun x b => Expr.eval (.settled env τ) x = .ok (.word [b])) row
      (if Word.stageSelected ys stage (stages == 0)
        then Word.moved down (signed && edge) values (twoPow stage) else values) := by
  obtain ⟨t₁, t₂, hselect, hshifted, hrow⟩ := h.steps
  have hmoved : ∀ x ∈ shifted, Steered fill signed down τ x := fun x hx =>
    .of_mem_preorderAll hsteer (h.uses x (by simp [hx]))
  refine hrow.eval env τ _ values _ hmux
    (hselect.eval env τ ys (fun hfinal => hsaturate (by simpa using hfinal)) hy hlen) ?_ ?_
  · rwa [h.map_fst]
  · rw [h.map_snd]
    exact hshifted.eval env τ signed down edge values hadmits hmoved hz hs hvalues

section Tail

variable (tail : StagesSpec p fill zero sign amount width stages (stage + 1) row mux₁ saturate₁ mid
  outs mux' saturate' last)

include tail

/-- All stages use the program of the first one's multiplexers. -/
theorem mux_eq (hwidth : 0 < width) : mux' = mux₁ := by
  obtain ⟨m, hm⟩ := Option.isSome_iff_exists.mp (h.placed hwidth)
  rw [tail.kept m hm, hm]

/-- The reduction is made by the last stage, and handed on by the others. -/
theorem saturate_cases : stages = 0 ∧ saturate' = saturate₁ ∨ 0 < stages ∧ saturate₁ = saturate := by
  obtain ⟨t₁, t₂, hselect, -, -⟩ := h.steps
  rcases Nat.eq_zero_or_pos stages with hzero | hpos
  · exact .inl ⟨hzero, tail.idle hzero⟩
  · exact .inr ⟨hpos, hselect.kept (by simpa using hpos.ne')⟩

theorem sketched_cons (hwidth : 0 < width) : Sketched (zero :: sign :: amount :: current)
    (muxHoles mux ++ saturateHoles saturate) (muxHoles mux' ++ saturateHoles saturate') next last
    outs := by
  obtain rfl := h.mux_eq tail hwidth
  refine h.sketched.step tail.sketched (List.Subset.refl _) ?_ ?_ (List.Subset.refl _) ?_
    fun x hx => by simp [hx]
  · rcases h.saturate_cases tail with ⟨rfl, -⟩ | ⟨-, rfl⟩
    · intro k hk
      simp only [List.mem_append, beq_self_eq_true, if_true] at hk ⊢
      tauto
    · intro k hk
      simp only [List.mem_append] at hk ⊢
      tauto
  · intro k
    rcases h.saturate_cases tail with ⟨rfl, rfl⟩ | ⟨hpos, rfl⟩
    · simp only [List.mem_append, beq_self_eq_true, if_true]
      tauto
    · rw [if_neg (by simpa using hpos.ne')]
      simp only [List.mem_append, List.not_mem_nil, false_or]
      tauto
  · intro x hx
    simp only [List.mem_cons, List.mem_append] at hx ⊢
    tauto

theorem needed_cons (hs : SaturateNeeded p (width - (stage + stages)) saturate) :
    SaturateNeeded p (width - (stage + stages)) saturate' := by
  obtain ⟨t₁, t₂, hselect, -, -⟩ := h.steps
  rcases h.saturate_cases tail with ⟨rfl, rfl⟩ | ⟨hpos, rfl⟩
  · exact hselect.needed rfl hs
  · have hrest := tail.needed hpos
    rw [show stage + 1 + stages - 1 = stage + stages by omega] at hrest
    exact hrest hs

theorem wires_cons (hwidth : 0 < width) (hm : MuxNeeded p mux)
    (hs : SaturateNeeded p (width - (stage + stages)) saturate) :
    ∀ k ∈ muxHoles mux' ++ saturateHoles saturate', .hole k ∈ preorderAll outs := by
  obtain ⟨t₁, t₂, hselect, -, hrow⟩ := h.steps
  intro k hk
  rcases h.saturate_cases tail with ⟨rfl, rfl⟩ | ⟨hpos, rfl⟩
  · obtain rfl := h.mux_eq tail hwidth
    rcases List.mem_append.mp hk with hk | hk
    · exact tail.uses_all (hrow.wires (h.pairs_ne hwidth) hm k hk)
    · exact mem_preorderAll_trans (hselect.wires rfl hs k hk)
        (tail.uses_all (h.uses_select hwidth))
  · have hrest := tail.wires hpos (hrow.needed hm)
    rw [show stage + 1 + stages - 1 = stage + stages by omega] at hrest
    exact hrest hs k hk

theorem eval_cons (hwidth : 0 < width) {env : Valuation} {τ : Hole → Bool} {signed down edge : Bool}
    {ys values : List Bool} (hadmits : fill.admits signed)
    (hsteer : ∀ x ∈ outs, Steered fill signed down τ x) (hmux : Multiplexes τ mux')
    (hsaturate : Saturates τ saturate')
    (hz : Expr.eval (.settled env τ) zero = .ok (.word [false]))
    (hs : Expr.eval (.settled env τ) sign = .ok (.word [edge]))
    (hy : Expr.eval (.settled env τ) amount = .ok (.word ys)) (hlen : ys.length = width)
    (hvalues : List.Forall₂ (fun x b => Expr.eval (.settled env τ) x = .ok (.word [b])) current
      values) :
    List.Forall₂ (fun x b => Expr.eval (.settled env τ) x = .ok (.word [b])) outs
      (Word.staged down (signed && edge) ys (stages + 1) stage values) := by
  obtain rfl := h.mux_eq tail hwidth
  have hrowsteer : ∀ x ∈ row, Steered fill signed down τ x := fun x hx =>
    .of_mem_preorderAll hsteer (tail.uses x hx)
  have hfinal : stages = 0 → Saturates τ saturate₁ := fun hzero => by
    rcases h.saturate_cases tail with ⟨-, rfl⟩ | ⟨hpos, -⟩
    · exact hsaturate
    · omega
  exact tail.eval env τ signed down edge ys _ hadmits hsteer hmux hsaturate hz hs hy hlen
    (h.eval hadmits hrowsteer hmux hfinal hz hs hy hlen hvalues)

end Tail

end StageSpec

/-- A stage and those that follow it. -/
theorem StagesSpec.cons (hwidth : 0 < width)
    (tail : StagesSpec p fill zero sign amount width stages (stage + 1) row mux₁ saturate₁ mid outs
      mux' saturate' last) :
    StagesSpec p fill zero sign amount width (stages + 1) stage current mux saturate next outs mux'
      saturate' last where
  kept g hg := tail.kept g (h.kept g hg)
  placed _ := h.mux_eq tail hwidth ▸ h.placed hwidth
  idle := nofun
  muxComplete := tail.muxComplete
  complete := tail.complete
  length := tail.length
  shape := tail.shape
  sketched := h.sketched_cons tail hwidth
  uses x hx := tail.uses_all (h.uses x (by simp [hx]))
  muxNeeded hm := tail.muxNeeded (h.muxNeeded hm)
  needed _ := h.needed_cons tail
  wires _ hm := h.wires_cons tail hwidth hm
  eval _ _ _ _ _ _ _ hadmits hsteer hm hsat hz hs hy hlen hvalues :=
    h.eval_cons tail hwidth hadmits hsteer hm hsat hz hs hy hlen hvalues

end Stage

/-- The first of several stages, and the run of those that follow. -/
theorem of_shiftStages (inputs : StageInputs zero sign amount width) (hstage : stage < width)
    (hcurrent : Working width current) (hmux : MuxComplete mux)
    (hsaturate : ∀ s ∈ saturate, s.Complete)
    (h : shiftStages p fill zero sign amount width (stages + 1) stage current mux saturate next =
      .ok ((outs, mux', saturate'), last)) :
    ∃ select saturate₁ shifted row mux₁ t₁ t₂ t₃,
      stageSelect p amount width stage (stages == 0) saturate next =
        .ok ((select, saturate₁), t₁) ∧
      muxBits p select (current.zip shifted) mux t₂ = .ok ((row, mux₁), t₃) ∧
      StageSpec p fill zero sign amount width stages stage current mux saturate next select shifted
        row mux₁ saturate₁ t₃ ∧
      shiftStages p fill zero sign amount width stages (stage + 1) row mux₁ saturate₁ t₃ =
        .ok ((outs, mux', saturate'), last) := by
  obtain ⟨⟨select, saturate₁⟩, t₁, hselect, h⟩ := of_bind h
  obtain ⟨shifted, t₂, hshifted, h⟩ := of_bind h
  obtain ⟨⟨row, mux₁⟩, t₃, hrow, h⟩ := of_bind h
  exact ⟨select, saturate₁, shifted, row, mux₁, t₁, t₂, t₃, hselect, hrow, ⟨hcurrent, t₁, t₂,
    stageSelect_spec inputs.amount_shape hstage hsaturate hselect,
    shiftedRow_spec inputs.const inputs.zero_shape inputs.sign_shape hcurrent (twoPow_pos stage)
      hshifted, muxBits_spec hmux hrow⟩, h⟩

theorem shiftStages_spec (inputs : StageInputs zero sign amount width)
    (hstages : stage + stages ≤ width) (hcurrent : Working width current) (hmux : MuxComplete mux)
    (hsaturate : ∀ s ∈ saturate, s.Complete)
    (h : shiftStages p fill zero sign amount width stages stage current mux saturate next =
      .ok ((outs, mux', saturate'), last)) :
    StagesSpec p fill zero sign amount width stages stage current mux saturate next outs mux'
      saturate' last := by
  induction stages generalizing stage current mux saturate next with
  | zero =>
    cases h
    exact stagesSpec_nil hmux hsaturate hcurrent
  | succ stages ih =>
    obtain ⟨select, saturate₁, shifted, row, mux₁, t₁, t₂, t₃, -, -, hstage, h⟩ :=
      of_shiftStages inputs (by omega) hcurrent hmux hsaturate h
    exact .cons hstage inputs.pos
      (ih (by omega) hstage.next_working hstage.muxComplete hstage.complete h)

/-- What selects a stage can be made again: the last one with a new program or with the same one,
and any other with whatever is handed on. -/
theorem stageSelect_again {amount' : Expr} {hand : Option ReductionProgram}
    (hamount : amount.shape = .word width) (hamount' : amount'.shape = .word width)
    (hstage : stage < width) (hsaturate : ∀ s ∈ saturate, s.Complete) {select : Expr}
    {saturate₁ : Option ReductionProgram}
    (h : stageSelect p amount width stage (stages == 0) saturate next =
      .ok ((select, saturate₁), mid))
    (idle : stages = 0 → saturate' = saturate₁)
    (same : hand = none ∧ saturate = none ∨ hand = saturate') (next' : Nat) :
    ∃ select' hand' mid', stageSelect p amount' width stage (stages == 0) hand next' =
      .ok ((select', hand'), mid') ∧ (hand = saturate' → hand' = saturate') ∧
        (0 < stages → hand' = none ∧ saturate₁ = none ∨ hand' = saturate') := by
  cases stages with
  | zero =>
    obtain rfl := idle rfl
    obtain ⟨select', hand', mid', hselect', hkeep⟩ :=
      stageSelect_reusable hamount hamount' hstage hsaturate h same next'
    exact ⟨select', hand', mid', hselect', hkeep, fun h => absurd h (Nat.lt_irrefl 0)⟩
  | succ stages =>
    obtain rfl := (stageSelect_spec hamount hstage hsaturate h).kept rfl
    obtain ⟨select', mid', hselect'⟩ := stageSelect_early p amount' width stage hand next'
    exact ⟨select', hand, mid', hselect', id, fun _ => same⟩

/-- The stages can be made again with new programs, or with the same ones. The reduction that is
handed on matters as long as there are stages. -/
theorem shiftStages_reusable {z sign' amount' : Expr} {current' : List Expr}
    {given : Option MuxProgram} {hand : Option ReductionProgram}
    (inputs : StageInputs zero sign amount width) (inputs' : StageInputs z sign' amount' width)
    (hstages : stage + stages ≤ width) (hcurrent : Working width current) (hmux : MuxComplete mux)
    (hsaturate : ∀ s ∈ saturate, s.Complete) (hcurrent' : Working width current')
    (hgiven : MuxComplete given) (sized : ∀ g ∈ given, Platform.MuxSized p g)
    (hhand : ∀ s ∈ hand, s.Complete)
    (h : shiftStages p fill zero sign amount width stages stage current mux saturate next =
      .ok ((outs, mux', saturate'), last))
    (same : 0 < stages → hand = none ∧ saturate = none ∨ hand = saturate') (next' : Nat) :
    ∃ outs' program hand' last', shiftStages p fill z sign' amount' width stages stage current'
      given hand next' = .ok ((outs', program, hand'), last') ∧ (hand = saturate' →
        hand' = saturate') := by
  induction stages generalizing stage current current' mux saturate next given hand next' with
  | zero => exact ⟨current', given, hand, next', rfl, id⟩
  | succ stages ih =>
    obtain ⟨select, saturate₁, shifted, row, mux₁, t₁, t₂, t₃, hselect, hrow, hstage, h⟩ :=
      of_shiftStages inputs (by omega) hcurrent hmux hsaturate h
    obtain ⟨m, here, moved, out, mid, rfl, hfirst⟩ :=
      exists_mux2_of_muxBits (hstage.pairs_ne inputs.pos) hrow
    have htail := shiftStages_spec inputs (by omega) hstage.next_working hstage.muxComplete
      hstage.complete h
    obtain ⟨select', hand', u₁, hselect', hkeep, hnext⟩ := stageSelect_again inputs.amount_shape
      inputs'.amount_shape (by omega) hsaturate hselect htail.idle (same (by omega)) next'
    obtain ⟨shifted', u₂, hshifted'⟩ :=
      succeeds_shiftedRow fill z sign' current' width (twoPow stage) u₁
    have hselectSpec' := stageSelect_spec inputs'.amount_shape (by omega) hhand hselect'
    have hshiftedSpec' := shiftedRow_spec inputs'.const inputs'.zero_shape inputs'.sign_shape
      hcurrent' (twoPow_pos stage) hshifted'
    obtain ⟨row', given', u₃, hrow', hsized⟩ := muxBits_reusable hfirst hselectSpec'.shape
      (fun q hq => ⟨hcurrent'.shape _ (List.of_mem_zip hq).1,
        hshiftedSpec'.shape _ (List.of_mem_zip hq).2⟩) given sized u₂
    have hstage' : StageSpec p fill z sign' amount' width stages stage current' given hand next'
        select' shifted' row' given' hand' u₃ :=
      ⟨hcurrent', u₁, u₂, hselectSpec', hshiftedSpec', muxBits_spec hgiven hrow'⟩
    obtain ⟨outs', program, hand'', last', hrest', hkeep'⟩ := ih (by omega) hstage.next_working
      hstage.muxComplete hstage.complete hstage'.next_working hstage'.muxComplete hsized
      hstage'.complete h hnext u₃
    refine ⟨outs', program, hand'', last', ?_, fun hh => hkeep' (hkeep hh)⟩
    rw [shiftStages, bind_of_ok hselect']
    simp only
    rw [bind_of_ok hshifted', bind_of_ok hrow']
    exact hrest'

/-- The program of the multiplexers fits the platform. -/
theorem sized_of_shiftStages (inputs : StageInputs zero sign amount width)
    (hstages : stage + (stages + 1) ≤ width) (hcurrent : Working width current)
    (hmux : MuxComplete mux) (hsaturate : ∀ s ∈ saturate, s.Complete)
    (h : shiftStages p fill zero sign amount width (stages + 1) stage current mux saturate next =
      .ok ((outs, mux', saturate'), last)) : ∀ m ∈ mux', Platform.MuxSized p m := by
  obtain ⟨select, saturate₁, shifted, row, mux₁, t₁, t₂, t₃, -, hrow, hstage, h⟩ :=
    of_shiftStages inputs (by omega) hcurrent hmux hsaturate h
  obtain ⟨m, here, moved, out, mid, rfl, hfirst⟩ :=
    exists_mux2_of_muxBits (hstage.pairs_ne inputs.pos) hrow
  have htail := shiftStages_spec inputs (by omega) hstage.next_working hstage.muxComplete
    hstage.complete h
  obtain rfl : mux' = some m := htail.kept m rfl
  simpa using Platform.mux2_sized hfirst

/-- There is at least one stage and at most one for each bit, and if there is not one for each bit
then the last distance reaches the width. -/
theorem exists_stageCount (hwidth : 0 < width) (logarithmic : Bool) :
    ∃ n : Nat, stageCount width logarithmic = n + 1 ∧ n + 1 ≤ width ∧
      (n + 1 = width ∨ width ≤ twoPow n) := by
  cases logarithmic with
  | false => exact ⟨width - 1, by simp [stageCount]; omega, by omega, .inl (by omega)⟩
  | true =>
    have habs : ((width : Int) - 1).natAbs = width - 1 := by omega
    by_cases hone : width = 1
    · subst hone
      exact ⟨0, rfl, le_rfl, .inl rfl⟩
    · have hpos : width - 1 ≠ 0 := by omega
      have hupper : width - 1 < twoPow (Nat.log2 (width - 1) + 1) := Nat.lt_log2_self
      have hlower : Nat.log2 (width - 1) < width - 1 :=
        (Nat.log2_lt hpos).mpr Nat.lt_two_pow_self
      refine ⟨Nat.log2 (width - 1) + 1, ?_, by omega, .inr (by omega)⟩
      rw [stageCount, if_pos rfl, habs]
      simp [hpos]

theorem isConst_bit {ε : Type} {e y : Expr} {i : Nat} (hwidth : 1 < e.width)
    (h : (Build.bit e i : Build ε Expr) next = .ok (y, last)) : y.isConst = false := by
  rw [Build.bit, if_neg (by omega)] at h
  cases h
  rfl

/-- The bits of a word are a row at work. -/
theorem working_bits (ha : a.shape = .word width)
    (h : (Build.bits a : Build Refusal (List Expr)) next = .ok (current, last)) :
    Working width current := by
  obtain ⟨-, hcuts⟩ := of_bits ha h
  refine ⟨by simpa using hcuts.length_eq.symm, fun x hx => ?_, fun hwidth x hx => ?_⟩
  · obtain ⟨i, -, hcut⟩ := exists_of_forall₂_right hcuts hx
    exact hcut.shape_bit
  · rw [Build.bits, width_of_shape ha] at h
    obtain ⟨-, hall⟩ := of_mapM h fun i hi s y t hy => (of_bit ha (List.mem_range.mp hi) hy).1
    obtain ⟨i, -, s, t, -, -, hy⟩ := exists_of_forall₂_right hall hx
    exact isConst_bit (by rwa [width_of_shape ha]) hy

/-- The number of bits of the amount that select the last stage. -/
def remainingBits (width : Nat) (logarithmic : Bool) : Nat :=
  width - ((stageCount width logarithmic).toNat - 1)

/-- The holes of a shift's program. -/
def shiftHoles (s : ShiftProgram) : List Hole := muxHoles (some s.mux) ++ saturateHoles s.saturate

/-- A shift's program has no more holes than its sketch needs. -/
structure ShiftNeeded (p : Platform) (remaining : Nat) (s : ShiftProgram) : Prop where
  mux : MuxNeeded p (some s.mux)
  saturate : SaturateNeeded p remaining s.saturate

/-- The sketch of a shift. -/
structure ShiftSpec (p : Platform) (a amount : Expr) (width : Nat) (given : Option ShiftProgram)
    (logarithmic : Bool) (fill : Fill) (next : Nat) (out : Expr) (s : ShiftProgram) (last : Nat) :
    Prop where
  complete : s.Complete
  shape : out.shape = .word width
  sketched : Sketched [a, amount] ((given.map shiftHoles).getD []) (shiftHoles s) next last [out]
  needed : (∀ g ∈ given, ShiftNeeded p (remainingBits width logarithmic) g) →
    ShiftNeeded p (remainingBits width logarithmic) s
  wires : (∀ g ∈ given, ShiftNeeded p (remainingBits width logarithmic) g) →
    ∀ k ∈ shiftHoles s, .hole k ∈ out.preorder
  eval : ∀ (env : Valuation) (τ : Hole → Bool) (signed down : Bool) (xs ys : List Bool),
    fill.admits signed → Steered fill signed down τ out → Multiplexes τ (some s.mux) →
      Saturates τ s.saturate → eval (.settled env τ) a = .ok (.word xs) → xs.length = width →
        eval (.settled env τ) amount = .ok (.word ys) → ys.length = width →
          eval (.settled env τ) out = .ok (.word
            (Word.moved down (signed && xs.getD (width - 1) false) xs (Word.toNat ys)))

variable {given : Option ShiftProgram} {logarithmic : Bool} {s : ShiftProgram} {out : Expr}

theorem muxComplete_given (h : ∀ g ∈ given, g.Complete) :
    MuxComplete (given.map ShiftProgram.mux) := by
  intro m hm
  obtain ⟨g, hg, rfl⟩ := Option.map_eq_some_iff.mp hm
  exact (h g hg).mux

theorem saturateComplete_given (h : ∀ g ∈ given, g.Complete) :
    ∀ r ∈ given.bind ShiftProgram.saturate, r.Complete := by
  intro r hr
  obtain ⟨g, hg, hr⟩ := Option.bind_eq_some_iff.mp hr
  exact (h g hg).saturate r hr

theorem needed_given {remaining : Nat} (h : ∀ g ∈ given, ShiftNeeded p remaining g) :
    MuxNeeded p (given.map ShiftProgram.mux) ∧
      SaturateNeeded p remaining (given.bind ShiftProgram.saturate) := by
  cases given with
  | none => exact ⟨fun _ h => by simp at h, fun _ => rfl, by simp⟩
  | some g => exact ⟨(h g rfl).mux, (h g rfl).saturate⟩

theorem holes_given (given : Option ShiftProgram) : (given.map shiftHoles).getD [] =
    muxHoles (given.map ShiftProgram.mux) ++ saturateHoles (given.bind ShiftProgram.saturate) := by
  cases given <;> rfl

/-- A shift as it is made: the stages start from the bits of the first input, and the row that they
leave is joined. `count` is the number of stages less one. -/
structure ShiftRun (p : Platform) (a amount : Expr) (width : Nat) (given : Option ShiftProgram)
    (fill : Fill) (next : Nat) (out : Expr) (s : ShiftProgram) (last count tag start stop : Nat)
    (sign : Expr) (current outs : List Expr) : Prop where
  le_tag : next ≤ tag
  edge : Cut a (width - 1) (width - 1) sign
  lt_start : tag < start
  cuts : List.Forall₂ (fun i x => Cut a i i x) (List.range width) current
  working : Working width current
  stages : shiftStages p fill (zeroBit tag) sign amount width (count + 1) 0 current
    (given.map ShiftProgram.mux) (given.bind ShiftProgram.saturate) start =
      .ok ((outs, some s.mux, s.saturate), stop)
  spec : StagesSpec p fill (zeroBit tag) sign amount width (count + 1) 0 current
    (given.map ShiftProgram.mux) (given.bind ShiftProgram.saturate) start outs (some s.mux)
      s.saturate stop
  join : Join outs out
  le_last : stop ≤ last

theorem stageInputs_zeroBit (tag : Nat) (hwidth : 0 < width) (hsign : sign.shape = .word 1)
    (hamount : amount.shape = .word width) : StageInputs (zeroBit tag) sign amount width :=
  ⟨hwidth, rfl, rfl, hsign, hamount⟩

theorem of_shiftOf {count : Nat} (hwidth : 0 < width) (ha : a.shape = .word width)
    (hamount : amount.shape = .word width) (hgiven : ∀ g ∈ given, g.Complete)
    (hcount : stageCount width logarithmic = count + 1) (hle : count + 1 ≤ width)
    (h : shiftOf p a amount width given logarithmic fill next = .ok ((out, s), last)) :
    s.stages = .int (count + 1) ∧ ∃ tag start stop sign current outs,
      ShiftRun p a amount width given fill next out s last count tag start stop sign current
        outs := by
  have hn : (stageCount width logarithmic).toNat = count + 1 := by omega
  obtain ⟨sign, tag, hsign, h⟩ := of_bind h
  obtain ⟨zero, t, hzero, h⟩ := of_bind h
  obtain ⟨current, start, hcurrent, h⟩ := of_bind h
  obtain ⟨⟨outs, mux, saturate⟩, stop, hstages, h⟩ := of_bind h
  obtain ⟨joined, t', hjoined, h⟩ := of_bind h
  cases h
  obtain ⟨rfl, rfl⟩ : zeroBit tag = zero ∧ tag + 1 = t := by
    rw [const_zero] at hzero
    cases hzero
    exact ⟨rfl, rfl⟩
  rw [hn] at hstages
  obtain ⟨hle₁, hsigncut⟩ := of_bit ha (by omega) hsign
  obtain ⟨hle₃, hcuts⟩ := of_bits ha hcurrent
  have hworking := working_bits ha hcurrent
  have hspec := shiftStages_spec (stageInputs_zeroBit tag hwidth hsigncut.shape_bit hamount) (by omega)
    hworking (muxComplete_given hgiven) (saturateComplete_given hgiven) hstages
  obtain ⟨m, rfl⟩ := Option.isSome_iff_exists.mp (hspec.placed (by omega))
  obtain ⟨hle₅, hjoin⟩ := of_concatBits (fun x hx => isWord_of_shape (hspec.shape x hx))
    (List.ne_nil_of_length_pos (by rw [hspec.length]; exact hwidth)) hjoined
  refine ⟨congrArg Datum.int hcount, tag, start, stop, sign, current, outs, ?_⟩
  exact ⟨hle₁, hsigncut, by omega, hcuts, hworking, hstages, hspec, hjoin, hle₅⟩

namespace ShiftRun

variable {count tag start stop : Nat} (h : ShiftRun p a amount width given fill next out s last
  count tag start stop sign current outs)

include h

theorem uses {x : Expr} (hx : x ∈ preorderAll outs) : x ∈ out.preorder :=
  mem_preorder_of_mem_preorderAll hx h.join.uses

theorem shape : out.shape = .word width := by
  rw [h.join.shape_of_bits h.spec.shape, h.spec.length]

theorem sketched : Sketched [a, amount] ((given.map shiftHoles).getD []) (shiftHoles s) next last
    [out] := by
  have htag := h.le_tag
  have hstart := h.lt_start
  have hparts : Sketched [a, amount] ((given.map shiftHoles).getD []) [] next start
      (zeroBit tag :: sign :: amount :: current) := by
    refine .of_grown _ (by omega) fun x hx => ?_
    simp only [List.mem_cons] at hx
    rcases hx with rfl | rfl | rfl | hx
    · exact (grown_zeroBit tag).mono (by simp) (fun _ => False.elim) (fun _ => False.elim)
    · exact h.edge.grown.mono (by simp) (fun _ => False.elim) (fun _ => False.elim)
    · exact .operand (by simp)
    · obtain ⟨i, -, hcut⟩ := exists_of_forall₂_right h.cuts hx
      exact hcut.grown.mono (by simp) (fun _ => False.elim) (fun _ => False.elim)
  have hbits : Sketched [a, amount] ((given.map shiftHoles).getD [])
      (muxHoles (some s.mux) ++ saturateHoles s.saturate) next stop outs := by
    refine hparts.step h.spec.sketched (List.Subset.refl _) ?_ (by simp) (List.Subset.refl _)
      (fun x hx => by simpa [or_assoc] using Or.inr (Or.inr hx)) fun x hx => by simp [hx]
    rw [holes_given]
    simp
  have hlast : Sketched outs [] [] stop last [out] :=
    .of_grown [] h.le_last (List.forall_mem_singleton.mpr h.join.grown)
  exact hbits.step hlast (List.Subset.refl _) (by simp) (by simp [shiftHoles])
    (List.Subset.refl _) (fun x hx => by simp [hx]) (by simp)

theorem eval (hwidth : 0 < width) (ha : a.shape = .word width)
    (henough : count + 1 = width ∨ width ≤ twoPow count) {env : Valuation} {τ : Hole → Bool}
    {signed down : Bool} {xs ys : List Bool} (hadmits : fill.admits signed)
    (hsteer : Steered fill signed down τ out) (hmux : Multiplexes τ (some s.mux))
    (hsaturate : Saturates τ s.saturate)
    (hx : Expr.eval (.settled env τ) a = .ok (.word xs)) (hxs : xs.length = width)
    (hy : Expr.eval (.settled env τ) amount = .ok (.word ys)) (hys : ys.length = width) :
    Expr.eval (.settled env τ) out = .ok (.word
      (Word.moved down (signed && xs.getD (width - 1) false) xs (Word.toNat ys))) := by
  have hlen := width_of_shape ha
  have hrow := eval_all_cuts h.cuts hx ha hxs
  have hsign := h.edge.eval_getD hx (hxs.trans hlen.symm) (by omega)
  have hstaged := h.spec.eval env τ signed down _ ys xs hadmits
    (fun x hx => hsteer.mono (h.uses (mem_preorderAll_of_mem hx))) hmux hsaturate
    (eval_zeroBit _ tag) hsign hy hys hrow
  rw [Word.staged_eq_moved (hys.trans hxs.symm) (by rwa [hxs])] at hstaged
  exact h.join.eval_bits hstaged

end ShiftRun

theorem shiftOf_spec (hwidth : 0 < width) (ha : a.shape = .word width)
    (hamount : amount.shape = .word width) (hgiven : ∀ g ∈ given, g.Complete)
    (h : shiftOf p a amount width given logarithmic fill next = .ok ((out, s), last)) :
    ShiftSpec p a amount width given logarithmic fill next out s last := by
  obtain ⟨n, hcount, hle, henough⟩ := exists_stageCount hwidth logarithmic
  obtain ⟨-, tag, start, stop, sign, current, outs, hrun⟩ :=
    of_shiftOf hwidth ha hamount hgiven hcount hle h
  have hremaining : remainingBits width logarithmic = width - (0 + (n + 1) - 1) := by
    rw [remainingBits, hcount]
    omega
  have hneeded : (∀ g ∈ given, ShiftNeeded p (remainingBits width logarithmic) g) →
      MuxNeeded p (given.map ShiftProgram.mux) ∧
        SaturateNeeded p (width - (0 + (n + 1) - 1)) (given.bind ShiftProgram.saturate) :=
    fun h => hremaining ▸ needed_given h
  refine ⟨⟨hrun.spec.muxComplete _ rfl, hrun.spec.complete⟩, hrun.shape, hrun.sketched, fun h => ?_,
    fun h k hk => ?_, fun env τ signed down xs ys hadmits hsteer hmux hsat hx hxs hy hys =>
      hrun.eval hwidth ha henough hadmits hsteer hmux hsat hx hxs hy hys⟩
  · obtain ⟨hm, hs⟩ := hneeded h
    exact ⟨hrun.spec.muxNeeded hm, hremaining ▸ hrun.spec.needed (by omega) hs⟩
  · obtain ⟨hm, hs⟩ := hneeded h
    exact hrun.uses (hrun.spec.wires (by omega) hm hs k hk)

/-- Words of the same width can be shifted with a new program, or with the same one. -/
theorem shiftOf_reusable {a' amount' : Expr} {given' : Option ShiftProgram} (hwidth : 0 < width)
    (ha : a.shape = .word width) (hamount : amount.shape = .word width)
    (ha' : a'.shape = .word width) (hamount' : amount'.shape = .word width)
    (hgiven : ∀ g ∈ given, g.Complete) (fresh : given' = none → given = none)
    (hgiven' : ∀ g ∈ given', g.mux = s.mux ∧ g.saturate = s.saturate)
    (h : shiftOf p a amount width given logarithmic fill next = .ok ((out, s), last))
    (next' : Nat) : ∃ out' s' last',
      shiftOf p a' amount' width given' logarithmic fill next' = .ok ((out', s'), last') ∧
        ∀ g ∈ given', s' = s := by
  have hspec := shiftOf_spec hwidth ha hamount hgiven h
  obtain ⟨n, hcount, hle, -⟩ := exists_stageCount hwidth logarithmic
  obtain ⟨hstated, tag, start, stop, sign, current, outs, hrun⟩ :=
    of_shiftOf hwidth ha hamount hgiven hcount hle h
  have inputs := stageInputs_zeroBit tag hwidth hrun.edge.shape_bit hamount
  have hmuxSized := sized_of_shiftStages inputs (by omega) hrun.working (muxComplete_given hgiven)
    (saturateComplete_given hgiven) hrun.stages
  have hgivenComplete' : ∀ g ∈ given', g.Complete := fun g hg =>
    ⟨(hgiven' g hg).1 ▸ hspec.complete.mux, (hgiven' g hg).2 ▸ hspec.complete.saturate⟩
  have hsized : ∀ g ∈ given'.map ShiftProgram.mux, Platform.MuxSized p g := by
    intro g hg
    obtain ⟨s', hs, rfl⟩ := Option.map_eq_some_iff.mp hg
    exact (hgiven' s' hs).1 ▸ hmuxSized s.mux rfl
  have hsame : 0 < n + 1 → given'.bind ShiftProgram.saturate = none ∧
      given.bind ShiftProgram.saturate = none ∨ given'.bind ShiftProgram.saturate = s.saturate := by
    intro _
    cases given' with
    | none => exact .inl (by simp [fresh rfl])
    | some g => exact .inr (hgiven' g rfl).2
  obtain ⟨sign', u₁, hsign'⟩ := succeeds_bit (ε := Refusal) a' (width - 1) next'
  obtain ⟨current', u₃, hcurrent'⟩ := succeeds_bits (ε := Refusal) a' (u₁ + 1)
  have inputs' := stageInputs_zeroBit u₁ hwidth
    (of_bit ha' (by omega) hsign').2.shape_bit hamount'
  obtain ⟨outs', program, hand, u₄, hstages', hkept⟩ := shiftStages_reusable inputs inputs'
    (by omega) hrun.working (muxComplete_given hgiven) (saturateComplete_given hgiven)
    (working_bits ha' hcurrent') (muxComplete_given hgivenComplete') hsized
    (saturateComplete_given hgivenComplete') hrun.stages hsame u₃
  obtain ⟨joined', u₅, hjoined'⟩ := succeeds_concatBits (ε := Refusal) outs' u₄
  refine ⟨joined', ⟨program.getD ⟨2, none⟩, hand, .int (n + 1)⟩, u₅, ?_, fun g hg => ?_⟩
  · rw [shiftOf, bind_of_ok hsign', bind_of_ok const_zero, bind_of_ok hcurrent', hcount]
    simp only
    rw [show ((n : Int) + 1).toNat = n + 1 from rfl, bind_of_ok hstages']
    simp only
    rw [bind_of_ok hjoined']
    rfl
  · rw [Option.mem_def] at hg
    subst hg
    have hstagesSpec' := shiftStages_spec inputs' (by omega) (working_bits ha' hcurrent')
      (muxComplete_given hgivenComplete') (saturateComplete_given hgivenComplete') hstages'
    rw [hstagesSpec'.kept g.mux rfl, hkept (hgiven' g rfl).2, (hgiven' g rfl).1, ← hstated]
    rfl

end Template
end CircuitSketch
