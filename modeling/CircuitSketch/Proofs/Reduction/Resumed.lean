import CircuitSketch.Proofs.Reduction.Depth
import CircuitSketch.Proofs.Reduction.Kept

/-!
# Reductions with the program of another one

The program of a reduction can be handed in for as many rows of another length. Levels that both
reductions have are programmed alike. A shorter reduction leaves the last levels out, and a longer
one makes new ones; a level whose windows were all full may also need a pad. Where every window has
a table of its own, the first level has to have as many windows as before.
-/
namespace CircuitSketch

open CircuitSketch.Expr Build

namespace Row

variable {p : Platform} {rows : List (List Expr)} {length : Nat}

/-- A window of a single bit does not shorten a row. -/
theorem packBits_narrow (heven : Even length rows) (single : rows.length = 1) (hone : p.maxLut = 1)
    (several : 1 < length) (given : Option RowProgram) (share : Bool) (next : Nat) :
    packBits p rows given share false next =
      .error (.unsupported (.windowTooSmall p.name ⟨1, p.largest.pointed⟩)) := by
  have hwindow : p.window rows.length false = .ok ⟨1, p.largest.pointed⟩ := by
    rw [Platform.window_eq_ok, single, hone]
    exact ⟨le_rfl, rfl⟩
  rw [packBits, bind_of_ok (lift_of_ok hwindow),
    if_pos ⟨single, Nat.one_lt_two, by rwa [heven.headD]⟩]
  rfl

/-- Where every window has a table of its own, as many tables are asked for as there are windows. -/
theorem packBits_mismatch {g : RowProgram} (heven : Even length rows) (fits : rows.length ≤ p.maxLut)
    (shortens : ¬ (p.maxLut = 1 ∧ 1 < length)) (ne : g.luts ≠ [])
    (differ : g.luts.length ≠ windowCount length (p.maxLut / rows.length)) (next : Nat) :
    packBits p rows (some g) false false next = .error (.mismatch (.windows g.luts.length
      ⟨windowCount length (p.maxLut / rows.length), p.largest.pointed⟩)) := by
  have hrows : 0 < rows.length := List.length_pos_iff.mpr heven.ne
  have hwindow : p.window rows.length false = .ok ⟨p.maxLut / rows.length, p.largest.pointed⟩ :=
    Platform.window_eq_ok.mpr ⟨Nat.div_pos fits hrows, rfl⟩
  rw [packBits, bind_of_ok (lift_of_ok hwindow), if_neg (shortens_largest heven fits shortens)]
  simp only [heven.headD, Option.map_some, Option.getD_some]
  rw [if_pos (by simpa using ⟨ne, differ⟩)]
  rfl

end Row

namespace Reduction

variable {p : Platform} {share : Bool} {next last : Nat}

/-- With a single input there is no reduction of several bits. -/
theorem reduce_narrow {length : Nat} {rows : List (List Expr)} (heven : Row.Even length rows)
    (fits : rows.length ≤ p.maxLut) (hone : p.maxLut = 1) (several : 1 < length)
    (given : Option ReductionProgram) :
    reduce p (rows.map fun row => row.map .expr) given share next =
      .error (.unsupported (.windowTooSmall p.name ⟨1, p.largest.pointed⟩)) := by
  have hrows : 0 < rows.length := List.length_pos_iff.mpr heven.ne
  rw [reduce_eq_bind heven]
  exact bind_of_error (Row.packBits_narrow heven (by omega) hone several _ share next)

/-- A program with a table for every window of other rows is turned down. -/
theorem reduce_mismatch {length length' : Nat} {rows : List (List Expr)} {s : ReductionProgram}
    (heven : Row.Even length' rows) (fits : rows.length ≤ p.maxLut)
    (shortens : ¬ (p.maxLut = 1 ∧ 1 < length')) (pos : 0 < length) (ne : s.levels ≠ [])
    (levels : LevelsFit p false rows.length length s.levels)
    (differ : length ⌈/⌉ (p.maxLut / rows.length) ≠ length' ⌈/⌉ (p.maxLut / rows.length)) :
    reduce p (rows.map fun row => row.map .expr) (some s) false next =
      .error (.mismatch (.windows (length ⌈/⌉ (p.maxLut / rows.length))
        ⟨length' ⌈/⌉ (p.maxLut / rows.length), p.largest.pointed⟩)) := by
  obtain ⟨_ | ⟨r, rs⟩⟩ := s
  · exact absurd rfl ne
  have hwindow : 0 < p.maxLut / rows.length :=
    Nat.div_pos fits (List.length_pos_iff.mpr heven.ne)
  have hluts := levels.1.length
  rw [if_neg Bool.false_ne_true] at hluts
  have hdiffer : r.luts.length ≠ Row.windowCount length' (p.maxLut / rows.length) := by
    rw [hluts]
    exact differ
  have hluts_ne : r.luts ≠ [] := by
    rw [← List.length_pos_iff, hluts, Row.lt_windowCount_iff hwindow]
    simpa using pos
  have hmismatch := Row.packBits_mismatch heven fits shortens hluts_ne hdiffer next
  rw [hluts] at hmismatch
  rw [reduce_eq_bind heven]
  exact bind_of_error hmismatch

/-- A program of a reduction that was made, anew or with the program of another one. -/
inductive Issued : ReductionProgram → Prop
  | reduced {p : Platform} {rows : List (List Operand)} {given : Option ReductionProgram}
      {share : Bool} {next last : Nat} {bit : Expr} {s : ReductionProgram}
      (before : ∀ g ∈ given, Issued g)
      (run : reduce p rows given share next = .ok ((bit, s), last)) : Issued s

theorem Issued.complete {s : ReductionProgram} (h : Issued s) : s.Complete := by
  induction h with
  | reduced before run ih =>
    obtain ⟨words, length, rfl, -⟩ := even_of_reduce run
    obtain ⟨_, hspec⟩ := reduce_spec ih run
    exact hspec.complete

/-- As many rows of another length, reduced with the program of a reduction: with a single input
several bits are turned down whatever the program, and with a table for every window another number
of windows is. Every other length is reduced, in as few levels as it takes, and the levels of the
program stay. -/
theorem reduce_resumed {length length' : Nat} {rows rows' : List (List Expr)}
    {given : Option ReductionProgram} {bit : Expr} {s : ReductionProgram}
    (hgiven : ∀ g ∈ given, Issued g) (length_eq : ∀ row ∈ rows, row.length = length)
    (h : reduce p (rows.map fun row => row.map .expr) given share next = .ok ((bit, s), last))
    (heven' : Row.Even length' rows') (same : rows'.length = rows.length) (next' : Nat) :
    let window := p.maxLut / rows.length
    let again := reduce p (rows'.map fun row => row.map .expr) (some s) share next'
    if p.maxLut = 1 ∧ 1 < length' then
      again = .error (.unsupported (.windowTooSmall p.name ⟨1, p.largest.pointed⟩))
    else if share = false ∧ length ⌈/⌉ window ≠ length' ⌈/⌉ window then
      again = .error (.mismatch
        (.windows (length ⌈/⌉ window) ⟨length' ⌈/⌉ window, p.largest.pointed⟩))
    else ∃ bit' s' last', again = .ok ((bit', s'), last') ∧
      LevelsContinue s.levels s'.levels next' last' ∧
      IsDepth p.maxLut (length' ⌈/⌉ window) s'.levels.length ∧
      (length ⌈/⌉ window = length' ⌈/⌉ window → s'.levels.length = s.levels.length) := by
  intro window again
  have hcomplete : ∀ g ∈ given, g.Complete := fun g hg => (hgiven g hg).complete
  have hs : ∀ g ∈ some s, g.Complete := by simpa using (Issued.reduced hgiven h).complete
  obtain ⟨length₀, heven⟩ := exists_even_of_reduce h
  obtain ⟨row, hrow⟩ := List.exists_mem_of_ne_nil _ heven.ne
  obtain rfl : length₀ = length := (heven.same row hrow).symm.trans (length_eq row hrow)
  have hlevels := levelsFit_of_reduce heven hcomplete h
  obtain ⟨hroom, -⟩ := packs_of_reduce heven h
  have hwindow : p.maxLut / rows'.length = window := by rw [same]
  rw [← same] at hroom hlevels
  by_cases hnarrow : p.maxLut = 1 ∧ 1 < length'
  · rw [if_pos hnarrow]
    exact reduce_narrow heven' hroom.fits hnarrow.1 hnarrow.2 _
  rw [if_neg hnarrow]
  by_cases hdiffer : share = false ∧ length₀ ⌈/⌉ window ≠ length' ⌈/⌉ window
  · rw [if_pos hdiffer]
    obtain ⟨rfl, hne⟩ := hdiffer
    obtain ⟨outs, r, rs, t, rfl, -, -⟩ := (reduce_eq_ok heven).mp h
    rw [← hwindow] at hne ⊢
    exact reduce_mismatch heven' hroom.fits hnarrow heven.pos (by simp) hlevels hne
  · rw [if_neg hdiffer]
    have hlevels' : LevelsFit p share rows'.length length' s.levels := by
      cases share with
      | true => exact levelsFit_of_share hlevels length'
      | false =>
        refine levelsFit_of_windowCount ?_ hlevels
        by_contra hne
        rw [hwindow] at hne
        exact hdiffer ⟨rfl, hne⟩
    obtain ⟨bit', s', last', h'⟩ :=
      exists_reduce heven' hroom hnarrow share (some s) hs hlevels' next'
    refine ⟨bit', s', last', h', reduce_continues heven' hs hlevels' h', ?_, fun hwindows => ?_⟩
    · have hdepth := isDepth_levels heven' hs h'
      rwa [hwindow] at hdepth
    · rw [length_levels heven hcomplete h, length_levels heven' hs h', hwindow, ← hwindows]

/-- Nine bits reduced with the program of three, between tables of four inputs: the first level
stays, and a second one reduces its three windows. -/
theorem reduce_resumed_longer :
    let row := fun n => [List.replicate n (.expr (Expr.input 0 "a" 1))]
    ∃ bit s last bit' s' last',
      reduce .latticeEcp5 (row 3) none true 1 = .ok ((bit, s), last) ∧
      reduce .latticeEcp5 (row 9) (some s) true last = .ok ((bit', s'), last') ∧
      LevelsContinue s.levels s'.levels last last' ∧ s'.levels.length = 2 := by
  have heven : ∀ n, 0 < n → Row.Even n [List.replicate n (Expr.input 0 "a" 1)] := fun n pos =>
    ⟨pos, by simp, by simp, by simp [Expr.input]⟩
  have hrow : ∀ n, [List.replicate n (Expr.input 0 "a" 1)].map (fun row => row.map Operand.expr) =
      [List.replicate n (.expr (Expr.input 0 "a" 1))] := by simp
  have room : Platform.latticeEcp5.Packs 1 :=
    (Platform.plain_of_mem_known (by simp [Platform.known])).packs_iff.mpr (by decide)
  obtain ⟨bit, s, last, h⟩ := exists_reduce (heven 3 (by decide)) room (by decide) true none
    (by simp) trivial 1
  have hresumed := reduce_resumed (by simp) (fun row hrow => (heven 3 (by decide)).same row hrow) h
    (heven 9 (by decide)) rfl last
  rw [if_neg (by decide), if_neg (by simp), hrow] at hresumed
  obtain ⟨bit', s', last', h', hlevels, hdepth, -⟩ := hresumed
  obtain ⟨htwo, hlow, -⟩ : 2 ≤ s'.levels.length ∧ 4 ^ (s'.levels.length - 2) < 3 ∧
      3 ≤ 4 ^ (s'.levels.length - 1) := hdepth
  have hle : s'.levels.length - 2 < 1 :=
    (Nat.pow_lt_pow_iff_right (by decide : 1 < 4)).mp (hlow.trans (by decide))
  rw [hrow] at h
  exact ⟨bit, s, last, bit', s', last', h, h', hlevels, by omega⟩

/-- A platform whose lookup tables have a single input. -/
def singleInput : Platform where
  name := "single_input"
  lutSizes := Platform.lutRange 1 1
  mux := none
  carry := none

/-- With tables of a single input the program of one bit does not help to reduce two: there are
other windows than before, and yet it is not the program that is turned down. -/
theorem reduce_singleInput :
    let a := Operand.expr (Expr.input 0 "a" 1)
    (∃ bit s last, reduce singleInput [[a]] none true 1 = .ok ((bit, s), last) ∧
      ∀ r, reduce singleInput [[a, a]] (some s) true last ≠ .ok r) ∧
    (∃ bit s last, reduce singleInput [[a]] none false 1 = .ok ((bit, s), last) ∧
      (1 : Nat) ⌈/⌉ (singleInput.maxLut / 1) ≠ (2 : Nat) ⌈/⌉ (singleInput.maxLut / 1) ∧
        ∀ m, reduce singleInput [[a, a]] (some s) false last ≠ .error (.mismatch m)) := by
  have hone : Row.Even 1 [[Expr.input 0 "a" 1]] :=
    ⟨by decide, by simp, by simp, by simp [Expr.input]⟩
  have htwo : Row.Even 2 [[Expr.input 0 "a" 1, Expr.input 0 "a" 1]] :=
    ⟨by decide, by simp, by simp, by simp [Expr.input]⟩
  have hreturns : ∀ share, ∃ bit s last,
      reduce singleInput [[.expr (Expr.input 0 "a" 1)]] none share 1 = .ok ((bit, s), last) :=
    fun share =>
    exists_reduce hone ⟨by decide, by decide, by decide⟩ (by decide) share none (by simp) trivial 1
  have hnarrow : ∀ share s next, reduce singleInput
      [[.expr (Expr.input 0 "a" 1), .expr (Expr.input 0 "a" 1)]] (some s) share next =
        .error (.unsupported (.windowTooSmall "single_input" ⟨1, false⟩)) := fun share s next =>
    reduce_narrow htwo (by decide) (by decide) (by decide) (some s)
  obtain ⟨bit, s, last, h⟩ := hreturns true
  obtain ⟨bit', s', last', h'⟩ := hreturns false
  refine ⟨⟨bit, s, last, h, fun r => ?_⟩, bit', s', last', h', by decide, fun m => ?_⟩
  · rw [hnarrow]
    simp
  · rw [hnarrow]
    simp

end Reduction
end CircuitSketch
