import CircuitSketch.Proofs.Reduction.Total

/-!
# Programs handed on

A program that fits stays when it is handed in: each level keeps its tables and its pad, and makes a
pad only if the windows call for one and there was none. Rows like those that a program was made for
call for nothing new, so there the program stays as a whole.
-/
namespace CircuitSketch

open CircuitSketch.Expr Build

/-- The program of a level that was handed the program of the same level of another reduction, if
that has one. The tables stay and so does the pad. New are the holes of a level that the other
reduction lacks, and a pad where it has none. -/
structure RowProgram.Continues (given : Option RowProgram) (r : RowProgram) (lo hi : Nat) : Prop where
  luts : ∀ g ∈ given, r.luts = g.luts
  pad : ∀ g ∈ given, ∀ k ∈ g.pad, r.pad = some k
  new : ∀ k ∈ r.holes, (∃ g ∈ given, k ∈ g.holes) ∨
    lo ≤ k.tag ∧ k.tag < hi ∧ ∀ g ∈ given, g.pad = none ∧ r.pad = some k

theorem RowProgram.Continues.mono {given : Option RowProgram} {r : RowProgram} {lo lo' hi hi' : Nat}
    (h : r.Continues given lo hi) (hlo : lo' ≤ lo) (hhi : hi ≤ hi') : r.Continues given lo' hi' where
  luts := h.luts
  pad := h.pad
  new k hk := (h.new k hk).imp_right fun ⟨hge, hlt, hpad⟩ => ⟨by omega, by omega, hpad⟩

namespace Row

variable {p : Platform} {rows : List (List Expr)} {given : Option RowProgram} {share : Bool}
  {length next last : Nat} {outs : List Expr} {r : RowProgram}

/-- Rows that are packed with a program that fits are packed with its tables. -/
theorem luts_of_packBits {g : RowProgram} {inputs : Nat} (heven : Even length rows)
    (fits : g.Fits share inputs (windowCount length (p.maxLut / rows.length)))
    (h : packBits p rows (some g) share false next = .ok ((outs, r), last)) : r.luts = g.luts := by
  obtain ⟨window, t, hpackable, -, hplaced⟩ := packBits_eq_ok.mp h
  obtain ⟨-, rfl⟩ := Platform.window_eq_ok.mp hpackable.size
  have hlength := fits.length
  obtain ⟨luts, pad⟩ := r
  cases hplaced with
  | shared placed =>
    obtain ⟨l, hl⟩ := List.length_eq_one_iff.mp hlength
    rw [show handed (some g) = [l] from hl, List.head?_cons] at placed
    rw [placeShared_kept placed, hl]
    rfl
  | separate placed =>
    refine placeSeparate_kept (hlength.trans ?_) placed
    rw [windowsOf, heven.headD, List.length_map, List.length_range, if_neg Bool.false_ne_true]

theorem packBits_continues {inputs : Nat} (heven : Even length rows)
    (hgiven : ∀ g ∈ given, g.Complete)
    (fits : ∀ g ∈ given, g.Fits share inputs (windowCount length (p.maxLut / rows.length)))
    (h : packBits p rows given share false next = .ok ((outs, r), last)) :
    r.Continues given next last := by
  have hluts : ∀ g ∈ given, r.luts = g.luts := fun g hg => by
    rw [Option.mem_def] at hg
    subst hg
    exact luts_of_packBits heven (fits g rfl) h
  have hpad : ∀ g ∈ given, ∀ k ∈ g.pad, r.pad = some k := fun g hg k hk => by
    obtain ⟨window, t, -, hissued, -⟩ := packBits_eq_ok.mp h
    rw [Option.mem_def] at hg hk
    subst hg
    rw [Option.bind_some, hk] at hissued
    generalize r.pad = pad at hissued
    cases hissued
    rfl
  refine ⟨hluts, hpad, fun k hk => ?_⟩
  obtain ⟨-, used, hspec⟩ := packBits_spec_largest heven hgiven h
  cases given with
  | none => simpa using hspec.sketched.issued k hk
  | some g =>
    rcases hspec.sketched.issued k hk with hold | ⟨hge, hlt⟩
    · exact .inl ⟨g, rfl, hold⟩
    · rcases List.mem_append.mp hk with htable | hmem
      · rw [hluts g rfl] at htable
        exact .inl ⟨g, rfl, List.mem_append_left _ htable⟩
      · rw [Option.mem_toList] at hmem
        cases hg : g.pad with
        | some e =>
          have he := hpad g rfl e hg
          obtain rfl : e = k := Option.some.inj (he.symm.trans hmem)
          exact .inl ⟨g, rfl, List.mem_append_right _ (Option.mem_toList.mpr hg)⟩
        | none =>
          refine .inr ⟨hge, hlt, fun g' hg' => ?_⟩
          obtain rfl : g = g' := Option.some.inj hg'
          exact ⟨hg, hmem⟩

/-- Rows packed with the program of as many rows of the same length are packed with just that. -/
theorem packBits_again {rows' : List (List Expr)} {outs' : List Expr} {r' : RowProgram}
    {used : List LutProgram} {next' last' : Nat} (heven : Even length rows)
    (hspec : PackSpec length rows given share (p.maxLut / rows.length) next outs r used last)
    (heven' : Even length rows') (same : rows'.length = rows.length)
    (h : packBits p rows' (some r) share false next' = .ok ((outs', r'), last')) : r' = r := by
  have hfits := hspec.fits heven
  rw [← same] at hfits
  have hluts := luts_of_packBits heven' hfits h
  obtain ⟨window, t, hpackable, hissued, -⟩ := packBits_eq_ok.mp h
  obtain ⟨-, rfl⟩ := Platform.window_eq_ok.mp hpackable.size
  rw [heven'.headD, Option.bind_some, same] at hissued
  obtain ⟨luts, pad⟩ := r
  obtain ⟨luts', pad'⟩ := r'
  have hpad : pad' = pad := by
    cases hissued with
    | again => rfl
    | full => rfl
    | new part => cases hspec.padded part
  simp only at hluts hpad
  rw [hluts, hpad]

end Row

namespace Reduction

variable {p : Platform} {share : Bool} {next next' last last' : Nat}

/-- The levels of one reduction, each with the one of the same number in another reduction. -/
def LevelsContinue (given programs : List RowProgram) (lo hi : Nat) : Prop :=
  ∀ (i : Nat) (r : RowProgram), programs[i]? = some r → r.Continues given[i]? lo hi

theorem LevelsContinue.cons {given programs : List RowProgram} {r : RowProgram} {lo mid hi : Nat}
    (head : r.Continues given.head? lo mid) (tail : LevelsContinue given.tail programs mid hi)
    (hlo : lo ≤ mid) (hhi : mid ≤ hi) : LevelsContinue given (r :: programs) lo hi := by
  intro i r' hr'
  cases i with
  | zero =>
    obtain rfl : r = r' := Option.some.inj hr'
    rw [← List.head?_eq_getElem?]
    exact head.mono le_rfl hhi
  | succ i =>
    have hrest := tail i r' hr'
    rw [List.getElem?_tail] at hrest
    exact hrest.mono hlo le_rfl

theorem Folded.continues {row : List Expr} {given programs : List RowProgram} {bit : Expr}
    (h : Folded p share row given next bit programs last)
    (fits : LevelsFit p share 1 row.length given) : LevelsContinue given programs next last := by
  induction h with
  | single => simp [LevelsContinue]
  | further _ even complete size packed spec rest ih =>
    obtain ⟨-, rfl⟩ := Platform.window_eq_ok.mp size
    obtain ⟨hfirst, hfurther⟩ := levelsFit_iff.mp fits
    refine .cons (Row.packBits_continues even complete hfirst packed) (ih ?_) spec.sketched.le
      rest.spec.sketched.le
    rw [spec.length_eq]
    exact hfurther

/-- The levels of a reduction with a program that fits are the levels of that program, as far as
they go. -/
theorem reduce_continues {length : Nat} {rows : List (List Expr)} {given : Option ReductionProgram}
    {bit : Expr} {s : ReductionProgram} (heven : Row.Even length rows)
    (hgiven : ∀ g ∈ given, g.Complete)
    (fits : LevelsFit p share rows.length length (handedLevels given))
    (h : reduce p (rows.map fun row => row.map .expr) given share next = .ok ((bit, s), last)) :
    LevelsContinue (handedLevels given) s.levels next last := by
  obtain ⟨outs, r, rs, mid, used, rfl, hpack, hspec, hfold⟩ := of_reduce heven hgiven h
  have hhead : ∀ g ∈ (handedLevels given).head?, g.Complete := fun g hg =>
    complete_handedLevels hgiven g (List.mem_of_head? hg)
  obtain ⟨hfirst, hfurther⟩ := levelsFit_iff.mp fits
  rw [← hspec.length_eq] at hfurther
  exact .cons (Row.packBits_continues heven hhead hfirst hpack) (hfold.continues hfurther)
    hspec.sketched.le hfold.spec.sketched.le

/-- Two rows of one length that are reduced, the second one with the programs of the first one. -/
theorem Folded.again {row row' : List Expr} {given programs programs' : List RowProgram}
    {bit bit' : Expr} (h : Folded p share row given next bit programs last)
    (h' : Folded p share row' programs next' bit' programs' last')
    (same : row'.length = row.length) : programs' = programs := by
  induction h generalizing row' programs' next' bit' last' with
  | single =>
    cases h' with
    | single => rfl
    | further several => exact absurd same several
  | further several even _ size _ spec _ ih =>
    obtain ⟨-, rfl⟩ := Platform.window_eq_ok.mp size
    cases h' with
    | single => exact absurd same.symm several
    | further _ even' _ size' packed' spec' rest' =>
      obtain ⟨-, rfl⟩ := Platform.window_eq_ok.mp size'
      rw [same] at even'
      have hlength := spec'.length_eq
      rw [same, ← spec.length_eq] at hlength
      rw [Row.packBits_again even spec even' rfl packed', ih rest' hlength]

/-- As many rows of the same length are reduced with just the program of the reduction. -/
theorem reduce_again {length : Nat} {rows rows' : List (List Expr)}
    {given : Option ReductionProgram} {bit bit' : Expr} {s s' : ReductionProgram}
    (heven : Row.Even length rows) (heven' : Row.Even length rows')
    (same : rows'.length = rows.length) (hgiven : ∀ g ∈ given, g.Complete)
    (h : reduce p (rows.map fun row => row.map .expr) given share next = .ok ((bit, s), last))
    (h' : reduce p (rows'.map fun row => row.map .expr) (some s) share next' =
      .ok ((bit', s'), last')) : s' = s := by
  obtain ⟨_, hmade⟩ := reduce_spec hgiven h
  obtain ⟨outs, r, rs, mid, used, rfl, -, hspec, hfold⟩ := of_reduce heven hgiven h
  obtain ⟨outs', r', rs', mid', used', rfl, hpack', hspec', hfold'⟩ :=
    of_reduce heven' (by simpa using hmade.complete) h'
  have hlength : outs'.length = outs.length := by rw [hspec'.length_eq, hspec.length_eq, same]
  rw [Row.packBits_again heven hspec heven' same hpack', hfold.again hfold' hlength]

/-- As many rows of the same length can be reduced with a new program, or with that of the
reduction. -/
theorem reduce_reusable {length : Nat} {rows rows' : List (List Expr)}
    {given given' : Option ReductionProgram} {bit : Expr} {s : ReductionProgram}
    (heven' : Row.Even length rows') (same : rows'.length = rows.length)
    (heven : Row.Even length rows) (hgiven : ∀ g ∈ given, g.Complete) (hgiven' : ∀ g ∈ given', g = s)
    (h : reduce p (rows.map fun row => row.map .expr) given share next = .ok ((bit, s), last))
    (next' : Nat) : ∃ bit' s' last', reduce p (rows'.map fun row => row.map .expr) given' share next' =
      .ok ((bit', s'), last') ∧ ∀ g ∈ given', s' = g := by
  obtain ⟨hroom, hnarrow⟩ := packs_of_reduce heven h
  have hcomplete' : ∀ g ∈ given', g.Complete := fun g hg => by
    obtain ⟨_, hspec⟩ := reduce_spec hgiven h
    exact hgiven' g hg ▸ hspec.complete
  have hlevels : LevelsFit p share rows'.length length (handedLevels given') := by
    rw [same]
    cases given' with
    | none => trivial
    | some g =>
      obtain rfl := hgiven' g rfl
      exact levelsFit_of_reduce heven hgiven h
  obtain ⟨bit', s', last', h'⟩ :=
    exists_reduce heven' (same ▸ hroom) hnarrow share given' hcomplete' hlevels next'
  refine ⟨bit', s', last', h', fun g hg => ?_⟩
  obtain rfl := hgiven' g hg
  rw [Option.mem_def] at hg
  subst hg
  exact reduce_again heven heven' same hgiven h h'

end Reduction
end CircuitSketch
