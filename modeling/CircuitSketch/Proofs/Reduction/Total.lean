import CircuitSketch.Proofs.Reduction.Tree

/-!
# Reductions that are met

Rows can be packed as soon as the largest lookup table has an input for each of them and its size
can be counted up to, and reduced to one bit if it has two inputs, or if there is nothing to
shorten. Every window then fits a lookup table, and each level is shorter than the one before it, so
that the levels known beforehand are enough. Programs that are handed in have to fit: each level
then takes over its tables and its pad.
-/
namespace CircuitSketch

open CircuitSketch.Expr Build

/-- A row's program can be handed in for `count` windows: its tables have as many inputs as a window
has bits, there is one that all share or one for each window, and the pad is a single bit. -/
structure RowProgram.Fits (r : RowProgram) (share : Bool) (inputs count : Nat) : Prop where
  luts : ∀ l ∈ r.luts, l.inputs = inputs
  length : r.luts.length = if share then 1 else count
  pad : ∀ k ∈ r.pad, k.width = 1

/-- The programs of the levels can be handed in, from a level on that packs `rows` rows of one
length. -/
def LevelsFit (p : Platform) (share : Bool) : (rows length : Nat) → List RowProgram → Prop
  | _, _, [] => True
  | rows, length, r :: rs =>
    r.Fits share (rows * (p.maxLut / rows)) (Row.windowCount length (p.maxLut / rows)) ∧
      LevelsFit p share 1 (Row.windowCount length (p.maxLut / rows)) rs

namespace Platform

/-- As many rows can be packed: the largest lookup table has an input for each of them, and neither
its size nor that of the lookup table for one window was written with a point. -/
structure Packs (p : Platform) (rows : Nat) : Prop where
  fits : rows ≤ p.maxLut
  whole : p.largest.pointed = false
  table : p.pointedTable (rows * (p.maxLut / rows)) = false

variable {p : Platform} {rows : Nat} {window : Count}

/-- The window of a single row is as large as the largest lookup table. -/
theorem Packs.single (h : p.Packs rows) (pos : 0 < rows) : p.Packs 1 where
  fits := pos.trans_le h.fits
  whole := h.whole
  table := by
    rw [Nat.div_one, Nat.one_mul, pointedTable_eq (fittingLut?_maxLut (pos.trans_le h.fits))]
    exact h.whole

/-- Where every number was written without a point, the rows only have to fit the largest lookup
table. -/
theorem Plain.packs_iff (plain : p.Plain) : p.Packs rows ↔ rows ≤ p.maxLut :=
  ⟨Packs.fits, fun fits => ⟨fits, plain.written _, plain.pointedTable _⟩⟩

/-- The largest lookup table divided among the rows. -/
theorem window_eq_ok : p.window rows false = .ok window ↔
    1 ≤ p.maxLut / rows ∧ window = ⟨p.maxLut / rows, p.largest.pointed⟩ := by
  have hdiv : Int.fdiv p.maxLut rows = ((p.maxLut / rows : Nat) : Int) := by
    rw [Int.fdiv_eq_ediv_of_nonneg _ (by omega), Int.natCast_ediv]
  rw [Platform.window, hdiv]
  simp only [Bool.false_eq_true, false_and, if_false]
  split
  · next hlow =>
    simp only [reduceCtorEq, false_iff, not_and]
    omega
  · next hlow =>
    rw [Except.ok.injEq, Int.toNat_natCast]
    constructor
    · rintro rfl
      exact ⟨by omega, rfl⟩
    · rintro ⟨-, rfl⟩
      rfl

end Platform

namespace Row

variable {p : Platform} {rows : List (List Expr)} {length : Nat}

/-- A window is full, or filled up with a pad. -/
theorem length_windowOf {α : Type} {rows : List (List α)} {window k : Nat} {pad : List α}
    (hw : 0 < window) (hrows : ∀ row ∈ rows, row.length = length)
    (hk : k < windowCount length window) (hpad : length % window ≠ 0 → pad.length = 1) :
    (windowOf rows window k pad).length = rows.length * window := by
  cases rows with
  | nil => simp [windowOf]
  | cons row rest =>
    have hpos : 0 < row.length := by
      have hstart := (lt_windowCount_iff hw).mp hk
      rw [hrows row (by simp)]
      omega
    obtain ⟨b, hfill⟩ : ∃ b, length % window ≠ 0 → pad = [b] := by
      by_cases part : length % window = 0
      · exact ⟨row[0], fun hpart => absurd part hpart⟩
      · obtain ⟨b, hb⟩ := List.length_eq_one_iff.mp (hpad part)
        exact ⟨b, fun _ => hb⟩
    rw [windowOf_eq_flatMap b hrows hk hfill]
    simp [List.length_flatMap, Nat.add_mul, Nat.add_comm]

/-- A pad is handed in, or one is made where windows are not full. -/
theorem exists_padIssued (length window next : Nat) (given : Option Hole) :
    ∃ pad t, PadIssued length window next given pad t := by
  cases given with
  | some k => exact ⟨_, _, .again⟩
  | none =>
    by_cases hpart : length % window = 0
    · exact ⟨_, _, .full hpart⟩
    · exact ⟨_, _, .new hpart⟩

/-- Every window of rows has an expression for each of its places. -/
theorem length_of_mem_windowsOf {window next t : Nat} {given pad : Option Hole}
    (heven : Even length rows) (hw : 0 < window)
    (hissued : PadIssued length window next given pad t) :
    ∀ v ∈ windowsOf rows window pad, v.length = rows.length * window := by
  intro v hv
  obtain ⟨k, hk, rfl⟩ := List.mem_map.mp hv
  rw [heven.headD, List.mem_range] at hk
  refine length_windowOf hw heven.same hk fun hpart => ?_
  obtain ⟨k, rfl⟩ := Option.isSome_iff_exists.mp (hissued.padded hpart)
  rfl

/-- Windows of rows of bits are made of bits. -/
theorem windowsOf_bits {window next t : Nat} {given pad : Option Hole} (heven : Even length rows)
    (hissued : PadIssued length window next given pad t) (hgiven : ∀ k ∈ given, k.width = 1) :
    ∀ v ∈ windowsOf rows window pad, ∀ x ∈ v, x.shape = .word 1 := by
  intro v hv x hx
  obtain ⟨k, -, rfl⟩ := List.mem_map.mp hv
  rcases mem_windowOf hx with hx | hx
  · obtain ⟨row, hrow, hx⟩ := List.mem_flatten.mp hx
    exact heven.bits row hrow x hx
  · rw [Option.mem_toList, Option.map_eq_some_iff] at hx
    obtain ⟨h, hh, rfl⟩ := hx
    rw [← hissued.width hgiven h hh]
    rfl

/-- The largest lookup table shortens a single row, if it has two inputs. -/
theorem shortens_largest (heven : Even length rows) (fits : rows.length ≤ p.maxLut)
    (shortens : ¬ (p.maxLut = 1 ∧ 1 < length)) :
    ¬ (rows.length = 1 ∧ p.maxLut / rows.length < 2 ∧ 1 < (rows.headD []).length) := by
  rintro ⟨hrow, hsmall, hlong⟩
  rw [heven.headD] at hlong
  rw [hrow, Nat.div_one] at hsmall
  exact shortens ⟨by omega, hlong⟩

/-- What rows have to meet is met with the largest lookup table, unless a program has other windows.
-/
theorem packable_largest (heven : Even length rows) (room : p.Packs rows.length)
    (shortens : ¬ (p.maxLut = 1 ∧ 1 < length)) {share : Bool} {given : Option RowProgram}
    (hgiven : ∀ g ∈ given, g.luts.length =
      if share then 1 else windowCount length (p.maxLut / rows.length)) :
    Packable p rows given share false ⟨p.maxLut / rows.length, p.largest.pointed⟩ where
  size := Platform.window_eq_ok.mpr
    ⟨Nat.div_pos room.fits (List.length_pos_iff.mpr heven.ne), rfl⟩
  shortens := shortens_largest heven room.fits shortens
  fits hshare hne := by
    cases given with
    | none => exact absurd rfl hne
    | some g =>
      have hlength := hgiven g rfl
      rw [hshare, if_neg Bool.false_ne_true] at hlength
      rwa [heven.headD]
  plain := room.whole

/-- Rows can be packed if there is room for them in the largest lookup table; a single row has to be
shortened if it can be. -/
theorem exists_packBits (heven : Even length rows) (room : p.Packs rows.length)
    (shortens : ¬ (p.maxLut = 1 ∧ 1 < length)) {share : Bool} (given : Option RowProgram)
    (hgiven : ∀ g ∈ given, g.Fits share (rows.length * (p.maxLut / rows.length))
      (windowCount length (p.maxLut / rows.length))) (next : Nat) :
    ∃ outs r last, packBits p rows given share false next = .ok ((outs, r), last) := by
  have hrows : 0 < rows.length := List.length_pos_iff.mpr heven.ne
  have hw : 0 < p.maxLut / rows.length := Nat.div_pos room.fits hrows
  have hpackable := packable_largest heven room shortens fun g hg => (hgiven g hg).length
  obtain ⟨pad, t, hissued⟩ :=
    exists_padIssued length (p.maxLut / rows.length) next (given.bind RowProgram.pad)
  have hbits := windowsOf_bits heven hissued fun k hk => by
    obtain ⟨g, hg, hk⟩ := Option.bind_eq_some_iff.mp hk
    exact (hgiven g hg).pad k hk
  have hwindows : ∀ v ∈ windowsOf rows (p.maxLut / rows.length) pad,
      v.length = rows.length * (p.maxLut / rows.length) ∧ ∀ x ∈ v, x.shape = .word 1 :=
    fun v hv => ⟨length_of_mem_windowsOf heven hw hissued v hv, hbits v hv⟩
  have hpos : 1 ≤ rows.length * (p.maxLut / rows.length) := Nat.mul_pos hrows hw
  obtain ⟨size, hsize⟩ := Platform.exists_fitting hpos (Nat.mul_div_le _ _) room.table
  have hsized : ∀ l ∈ handed given,
      l.inputs = (rows.length * (p.maxLut / rows.length) : Nat) := by
    cases given with
    | none => simp [handed]
    | some g => exact (hgiven g rfl).luts
  cases share with
  | true =>
    obtain ⟨outs, program, last, hrun⟩ := exists_placeShared hsize hpos hwindows (handed given).head?
      (fun g hg => hsized g (List.mem_of_head? hg)) t
    exact ⟨outs, ⟨program.toList, pad⟩, last, packBits_eq_ok.mpr
      ⟨_, t, hpackable, by rwa [heven.headD], .shared hrun⟩⟩
  | false =>
    obtain ⟨outs, programs, last, hrun⟩ :=
      exists_placeSeparate hsize hpos hwindows (handed given) hsized t
    exact ⟨outs, ⟨programs, pad⟩, last, packBits_eq_ok.mpr
      ⟨_, t, hpackable, by rwa [heven.headD], .separate hrun⟩⟩

/-- Rows that were packed have windows as large as the largest lookup table allows. -/
theorem packBits_spec_largest {given : Option RowProgram} {share : Bool} {last : Nat}
    {outs : List Expr} {r : RowProgram} (heven : Even length rows)
    (hgiven : ∀ g ∈ given, g.Complete)
    (h : packBits p rows given share false next = .ok ((outs, r), last)) :
    1 ≤ p.maxLut / rows.length ∧ ∃ used,
      PackSpec length rows given share (p.maxLut / rows.length) next outs r used last := by
  obtain ⟨window, used, hwindow, hspec⟩ := packBits_spec heven hgiven h
  obtain ⟨hone, rfl⟩ := Platform.window_eq_ok.mp hwindow
  exact ⟨hone, used, hspec⟩

/-- A level that packs several bits leaves fewer. -/
theorem PackSpec.length_lt {row : List Expr} {given : Option RowProgram} {share : Bool} {last : Nat}
    {outs : List Expr} {r : RowProgram} {used : List LutProgram}
    (h : PackSpec row.length [row] given share (p.maxLut / [row].length) next outs r used last)
    (several : 1 < row.length) (two : 2 ≤ p.maxLut) : outs.length < row.length := by
  rw [h.length_eq, List.length_singleton, Nat.div_one]
  exact windowCount_lt several two

/-- The lookup table for the first window has a size that can be counted up to. -/
theorem Placed.exists_fitting {luts : List LutProgram} {windows : List (List Expr)}
    {pad : Option Hole} {t last : Nat} {share : Bool} {outs : List Expr} {r : RowProgram}
    (h : Placed p luts windows pad t share outs r last) (ne : windows ≠ []) :
    ∃ v ∈ windows, ∃ size, p.Fitting v.length size := by
  obtain ⟨v, rest, rfl⟩ := List.exists_cons_of_ne_nil ne
  refine ⟨v, by simp, ?_⟩
  cases h with
  | shared placed =>
    obtain ⟨⟨out, l⟩, mid, hout, -⟩ := of_bind placed
    obtain ⟨size, -, hfit, -⟩ := Platform.lut_eq_ok.mp hout
    exact ⟨size, hfit⟩
  | separate placed =>
    obtain ⟨⟨out, l⟩, mid, hout, -⟩ := of_bind placed
    obtain ⟨size, -, hfit, -⟩ := Platform.lut_eq_ok.mp hout
    exact ⟨size, hfit⟩

/-- There was room for what is packed, and with a single input there was nothing to shorten. -/
theorem packs_of_packBits {given : Option RowProgram} {share : Bool} {last : Nat}
    {outs : List Expr} {r : RowProgram} (heven : Even length rows)
    (h : packBits p rows given share false next = .ok ((outs, r), last)) :
    p.Packs rows.length ∧ ¬ (p.maxLut = 1 ∧ 1 < length) := by
  obtain ⟨window, t, hpackable, hissued, hplaced⟩ := packBits_eq_ok.mp h
  obtain ⟨hone, rfl⟩ := Platform.window_eq_ok.mp hpackable.size
  have hrows : 0 < rows.length := List.length_pos_iff.mpr heven.ne
  have hle : rows.length ≤ p.maxLut := by
    have := (Nat.le_div_iff_mul_le hrows).mp hone
    omega
  rw [heven.headD] at hissued
  obtain ⟨v, hv, size, hfit⟩ := hplaced.exists_fitting (windowsOf_ne hone heven)
  rw [length_of_mem_windowsOf heven hone hissued v hv] at hfit
  refine ⟨⟨hle, hpackable.plain, (Platform.pointedTable_eq hfit.smallest).trans hfit.plain⟩,
    fun ⟨hmax, hlong⟩ => hpackable.shortens ?_⟩
  have hrow : rows.length = 1 := by omega
  rw [hrow, hmax, heven.headD]
  exact ⟨rfl, by simp, hlong⟩

/-- The program of packed rows can be handed in for as many windows of the same size. -/
theorem PackSpec.fits {given : Option RowProgram} {share : Bool} {window last : Nat}
    {outs : List Expr} {r : RowProgram} {used : List LutProgram}
    (h : PackSpec length rows given share window next outs r used last)
    (heven : Even length rows) :
    r.Fits share (rows.length * window) (windowCount length window) where
  luts l hl := by
    obtain ⟨w, hw, hinputs⟩ := exists_of_forall₂_right h.inputs_eq (h.mem_used heven hl)
    obtain ⟨k, hk, rfl⟩ := List.mem_map.mp hw
    rw [heven.headD, List.mem_range] at hk
    rw [hinputs, windowBits_eq, Row.length_windowOf h.pos heven.same hk fun hpart => ?_]
    obtain ⟨e, he⟩ := Option.isSome_iff_exists.mp (h.padded hpart)
    rw [he]
    rfl
  length := by rw [h.length_luts heven, h.length_eq]
  pad := h.complete.pad

end Row

namespace Reduction

variable {p : Platform} {share : Bool} {rows length next last : Nat} {rs : List RowProgram}

/-- What a level is handed, and what is left for the further ones. -/
theorem levelsFit_iff : LevelsFit p share rows length rs ↔
    (∀ r ∈ rs.head?, r.Fits share (rows * (p.maxLut / rows))
      (Row.windowCount length (p.maxLut / rows))) ∧
    LevelsFit p share 1 (Row.windowCount length (p.maxLut / rows)) rs.tail := by
  cases rs <;> simp [LevelsFit]

/-- One table that all windows share fits any number of them. -/
theorem levelsFit_of_share (h : LevelsFit p true rows length rs) (length' : Nat) :
    LevelsFit p true rows length' rs := by
  induction rs generalizing rows length length' with
  | nil => trivial
  | cons r rs ih =>
    obtain ⟨hr, hrs⟩ := h
    exact ⟨⟨hr.luts, hr.length, hr.pad⟩, ih hrs _⟩

/-- Only the number of windows counts for what can be handed in. -/
theorem levelsFit_of_windowCount {length' : Nat}
    (same : Row.windowCount length (p.maxLut / rows) = Row.windowCount length' (p.maxLut / rows))
    (h : LevelsFit p share rows length rs) : LevelsFit p share rows length' rs := by
  cases rs with
  | nil => trivial
  | cons r rs =>
    rw [LevelsFit, ← same]
    exact h

/-- The levels known beforehand are enough: what is left of a row after one level is reduced in the
levels that are known for it. -/
theorem fold_further {row : List Expr} (ne : row ≠ []) (bits : ∀ x ∈ row, x.shape = .word 1)
    (several : row.length ≠ 1) (given : List RowProgram) (hgiven : ∀ g ∈ given, g.Complete) :
    fold p share (furtherLevels p.maxLut row.length) row given next =
      (Row.packBits p [row] given.head? share false >>= fun q =>
        fold p share (furtherLevels p.maxLut q.1.length) q.1 given.tail >>= fun f =>
          pure (f.1, q.2 :: f.2)) next := by
  have hlength : 1 < row.length := by
    have := List.length_pos_iff.mpr ne
    omega
  have heven := even_singleton ne bits
  obtain ⟨levels, hlevels⟩ : ∃ levels, furtherLevels p.maxLut row.length = levels + 1 := by
    rw [furtherLevels, if_neg (by omega)]
    split
    · exact ⟨0, rfl⟩
    · exact ⟨_, Nat.add_comm _ _⟩
  rw [hlevels, fold_succ p share levels given several]
  cases hpack : Row.packBits p [row] given.head? share false next with
  | error err => rw [bind_of_error hpack, bind_of_error hpack]
  | ok q =>
    obtain ⟨⟨outs, r⟩, t⟩ := q
    obtain ⟨⟨hone, -, -⟩, hnarrow⟩ := Row.packs_of_packBits heven hpack
    rw [List.length_singleton] at hone
    obtain ⟨-, used, hspec⟩ := Row.packBits_spec_largest heven
      (fun g hg => hgiven g (List.mem_of_head? hg)) hpack
    have hcount : furtherLevels p.maxLut outs.length = levels := by
      rw [furtherLevels, if_neg (by omega), if_neg (by omega)] at hlevels
      rw [hspec.length_eq, List.length_singleton, Nat.div_one]
      omega
    rw [bind_of_ok hpack, bind_of_ok hpack, hcount]

/-- A row of bits can be reduced in as many levels as are known beforehand. -/
theorem exists_fold {row : List Expr} (ne : row ≠ []) (bits : ∀ x ∈ row, x.shape = .word 1)
    (shortens : ¬ (p.maxLut = 1 ∧ 1 < row.length)) (room : p.Packs 1) (given : List RowProgram)
    (hgiven : ∀ g ∈ given, g.Complete) (fits : LevelsFit p share 1 row.length given) (next : Nat) :
    ∃ bit programs last, fold p share (furtherLevels p.maxLut row.length) row given next =
      .ok ((bit, programs), last) := by
  induction hn : row.length using Nat.strong_induction_on generalizing row given next with
  | _ n ih =>
    subst hn
    by_cases hone : row.length = 1
    · obtain ⟨x, rfl⟩ := List.length_eq_one_iff.mp hone
      exact ⟨x, [], next, by rw [fold_singleton]; rfl⟩
    · have hlength : 1 < row.length := by
        have := List.length_pos_iff.mpr ne
        omega
      have heven := even_singleton ne bits
      have hhead : ∀ g ∈ given.head?, g.Complete := fun g hg => hgiven g (List.mem_of_head? hg)
      obtain ⟨hfits, htail⟩ := levelsFit_iff.mp fits
      obtain ⟨outs, r, t, houts⟩ := Row.exists_packBits heven room shortens given.head? hfits next
      obtain ⟨-, used, hspec⟩ := Row.packBits_spec_largest heven hhead houts
      have hpos := room.fits
      have hlt := hspec.length_lt hlength (by omega)
      rw [← List.length_singleton (a := row), ← hspec.length_eq] at htail
      obtain ⟨bit, programs, last, hrest⟩ := ih outs.length hlt (hspec.outs_ne heven) hspec.shape
        (by omega) given.tail (fun g hg => hgiven g (List.mem_of_mem_tail hg)) htail t rfl
      refine ⟨bit, r :: programs, last, ?_⟩
      rw [fold_further ne bits hone given hgiven, bind_of_ok houts]
      simp only
      rw [bind_of_ok hrest]
      rfl

theorem Folded.levelsFit {row : List Expr} {given programs : List RowProgram} {bit : Expr}
    (h : Folded p share row given next bit programs last) :
    LevelsFit p share 1 row.length programs := by
  induction h with
  | single => trivial
  | further _ even _ size _ spec _ ih =>
    obtain ⟨-, rfl⟩ := Platform.window_eq_ok.mp size
    refine ⟨spec.fits even, ?_⟩
    rwa [spec.length_eq] at ih

/-- What a reduction is made of: the rows are packed, and the outputs reduced level by level. -/
theorem of_reduce {rows : List (List Expr)} {given : Option ReductionProgram} {bit : Expr}
    {s : ReductionProgram} (heven : Row.Even length rows) (hgiven : ∀ g ∈ given, g.Complete)
    (h : reduce p (rows.map fun row => row.map .expr) given share next = .ok ((bit, s), last)) :
    ∃ outs r rs mid used, s = ⟨r :: rs⟩ ∧
      Row.packBits p rows (handedLevels given).head? share false next = .ok ((outs, r), mid) ∧
      Row.PackSpec length rows (handedLevels given).head? share (p.maxLut / rows.length) next outs r
        used mid ∧
      Folded p share outs (handedLevels given).tail mid bit rs last := by
  obtain ⟨outs, r, rs, mid, rfl, hpack, hfold⟩ := (reduce_eq_ok heven).mp h
  have hlevels := complete_handedLevels hgiven
  obtain ⟨-, used, hspec⟩ := Row.packBits_spec_largest heven
    (fun g hg => hlevels g (List.mem_of_head? hg)) hpack
  exact ⟨outs, r, rs, mid, used, rfl, hpack, hspec, folded_of_fold (hspec.outs_ne heven) hspec.shape
    (fun g hg => hlevels g (List.mem_of_mem_tail hg)) hfold⟩

/-- The program of a reduction can be handed in for rows like those that were reduced. -/
theorem levelsFit_of_reduce {rows : List (List Expr)} {given : Option ReductionProgram} {bit : Expr}
    {s : ReductionProgram} (heven : Row.Even length rows) (hgiven : ∀ g ∈ given, g.Complete)
    (h : reduce p (rows.map fun row => row.map .expr) given share next = .ok ((bit, s), last)) :
    LevelsFit p share rows.length length s.levels := by
  obtain ⟨outs, r, rs, mid, used, rfl, -, hspec, hfold⟩ := of_reduce heven hgiven h
  have hrest := hfold.levelsFit
  rw [hspec.length_eq] at hrest
  exact ⟨hspec.fits heven, hrest⟩

/-- There was room for what is reduced, and with a single input there was nothing to shorten. -/
theorem packs_of_reduce {rows : List (List Expr)} {length : Nat}
    {given : Option ReductionProgram} {bit : Expr} {s : ReductionProgram}
    (heven : Row.Even length rows)
    (h : reduce p (rows.map fun row => row.map .expr) given share next = .ok ((bit, s), last)) :
    p.Packs rows.length ∧ ¬ (p.maxLut = 1 ∧ 1 < length) := by
  obtain ⟨outs, r, rs, t, -, hpack, -⟩ := (reduce_eq_ok heven).mp h
  exact Row.packs_of_packBits heven hpack

/-- With a single input there is one row of one bit, which is one window. -/
theorem two_le_of_windowCount {length : Nat} {rows : List (List Expr)} (heven : Row.Even length rows)
    (fits : rows.length ≤ p.maxLut) (shortens : ¬ (p.maxLut = 1 ∧ 1 < length))
    (several : 1 < Row.windowCount length (p.maxLut / rows.length)) : 2 ≤ p.maxLut := by
  have hrows : 0 < rows.length := List.length_pos_iff.mpr heven.ne
  have hpos := heven.pos
  by_contra hone
  rw [show length = 1 by omega, show p.maxLut = 1 by omega, show rows.length = 1 by omega]
    at several
  exact absurd several (by decide)

/-- Rows can be reduced to one bit if there is room for them in the largest lookup table, and it has
two inputs if there is anything to shorten. -/
theorem exists_reduce {length : Nat} {rows : List (List Expr)} (heven : Row.Even length rows)
    (room : p.Packs rows.length) (shortens : ¬ (p.maxLut = 1 ∧ 1 < length)) (share : Bool)
    (given : Option ReductionProgram) (hgiven : ∀ g ∈ given, g.Complete)
    (levels : LevelsFit p share rows.length length (handedLevels given)) (next : Nat) :
    ∃ bit s last, reduce p (rows.map fun row => row.map .expr) given share next =
      .ok ((bit, s), last) := by
  have hrows : 0 < rows.length := List.length_pos_iff.mpr heven.ne
  have hlevels := complete_handedLevels hgiven
  obtain ⟨hhead, htail⟩ := levelsFit_iff.mp levels
  obtain ⟨outs, r, t, houts⟩ := Row.exists_packBits heven room shortens _ hhead next
  obtain ⟨hone, used, hspec⟩ := Row.packBits_spec_largest heven
    (fun g hg => hlevels g (List.mem_of_head? hg)) houts
  rw [← hspec.length_eq] at htail
  have hshort : ¬ (p.maxLut = 1 ∧ 1 < outs.length) := by
    rintro ⟨hmax, hlong⟩
    have htwo := two_le_of_windowCount heven room.fits shortens (hspec.length_eq ▸ hlong)
    omega
  obtain ⟨bit, programs, last, hrest⟩ := exists_fold (hspec.outs_ne heven) hspec.shape hshort
    (room.single hrows) _ (fun g hg => hlevels g (List.mem_of_mem_tail hg)) htail t
  exact ⟨bit, ⟨r :: programs⟩, last,
    (reduce_eq_ok heven).mpr ⟨outs, r, programs, t, rfl, houts, hrest⟩⟩

end Reduction
end CircuitSketch
