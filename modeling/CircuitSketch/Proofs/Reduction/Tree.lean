import CircuitSketch.Proofs.Reduction.Pack
import CircuitSketch.Reduction.Tree

/-!
# Reduction to one bit

Each level of a reduction packs the outputs of the level before it. If every table pools the bits
that it reads, then so does the whole tree, however the bits are distributed over windows.
-/
namespace CircuitSketch

open CircuitSketch.Expr Build

/-- The levels of a reduction are complete. -/
def ReductionProgram.Complete (s : ReductionProgram) : Prop := ∀ r ∈ s.levels, r.Complete

theorem ReductionProgram.Complete.ones {s : ReductionProgram} (h : s.Complete) :
    ∀ k ∈ s.holes, k.width = 1 := by
  intro k hk
  obtain ⟨r, hr, hk⟩ := List.mem_flatMap.mp hk
  exact (h r hr).ones k hk

/-- The levels have pads only where windows are not full, from a level on that packs `rows` rows of
one length. -/
def LevelsNeeded (p : Platform) : (rows length : Nat) → List RowProgram → Prop
  | _, _, [] => True
  | rows, length, r :: rs => ∀ window, p.window rows false = .ok window →
    r.Needed length window.value ∧ LevelsNeeded p 1 (Row.windowCount length window.value) rs

namespace Reduction

variable {p : Platform} {share : Bool} {levels next mid last : Nat} {row : List Expr}
  {given programs : List RowProgram} {bit : Expr}

theorem fold_singleton (p : Platform) (share : Bool) (levels : Nat) (bit : Expr)
    (given : List RowProgram) : fold p share levels [bit] given = pure (bit, []) := by
  cases levels <;> rfl

theorem fold_zero (p : Platform) (share : Bool) {row : List Expr} (given : List RowProgram)
    (h : row.length ≠ 1) : fold p share 0 row given = fail (.arity .noRows) := by
  rw [fold]
  rintro x rfl
  exact h rfl

theorem fold_succ (p : Platform) (share : Bool) (levels : Nat) {row : List Expr}
    (given : List RowProgram) (h : row.length ≠ 1) : fold p share (levels + 1) row given =
      (Row.packBits p [row] given.head? share false >>= fun q =>
        fold p share levels q.1 given.tail >>= fun f => pure (f.1, q.2 :: f.2)) := by
  rw [fold]
  rintro x rfl
  exact h rfl

/-- A single row of bits reduced to one bit. -/
structure FoldSpec (p : Platform) (row : List Expr) (given : List RowProgram) (next : Nat)
    (bit : Expr) (programs : List RowProgram) (last : Nat) : Prop where
  complete : ∀ r ∈ programs, r.Complete
  shape : bit.shape = .word 1
  sketched : Sketched row (given.flatMap RowProgram.holes) (programs.flatMap RowProgram.holes) next
    last [bit]
  uses : ∀ x ∈ row, x ∈ bit.preorder
  needed : LevelsNeeded p 1 row.length given → LevelsNeeded p 1 row.length programs
  wires : LevelsNeeded p 1 row.length given →
    ∀ k ∈ programs.flatMap RowProgram.holes, .hole k ∈ bit.preorder
  eval : ∀ {op : Bool → Bool → Bool} {e : Bool}, Pools op e → ∀ (c : Context Bool)
    (τ : Hole → Bool) (bits : List Bool), c.Settles τ (programs.flatMap RowProgram.holes) →
      (∀ r ∈ programs, r.PooledBy τ op e) →
        List.Forall₂ (fun x b => eval c x = .ok (.word [b])) row bits →
          eval c bit = .ok (.word [bits.foldr op e])

theorem foldSpec_singleton (h : bit.shape = .word 1) (given : List RowProgram) :
    FoldSpec p [bit] given next bit [] next where
  complete := by simp
  shape := h
  sketched := ⟨le_rfl, by simp, List.forall_mem_singleton.mpr (.operand (by simp))⟩
  uses := by simp [mem_preorder_self]
  needed _ := trivial
  wires _ := by simp
  eval {op e} hop c τ bits _ _ hbits := by
    cases hbits with
    | cons hbit hnil =>
      cases hnil
      rw [hbit, List.foldr_cons, List.foldr_nil, hop.comm, hop.neutral]

theorem even_singleton (ne : row ≠ []) (bits : ∀ x ∈ row, x.shape = .word 1) :
    Row.Even row.length [row] :=
  ⟨List.length_pos_iff.mpr ne, by simp, by simp, by simpa using bits⟩

/-- One more level. -/
theorem FoldSpec.cons {window : Count} {outs : List Expr} {r : RowProgram}
    {used : List LutProgram} (heven : Row.Even row.length [row])
    (size : p.window 1 false = .ok window)
    (head : Row.PackSpec row.length [row] given.head? share window.value next outs r used mid)
    (tail : FoldSpec p outs given.tail mid bit programs last) :
    FoldSpec p row given next bit (r :: programs) last := by
  have hneeded : LevelsNeeded p 1 row.length given →
      (∀ g ∈ given.head?, g.Needed row.length window.value) ∧
        LevelsNeeded p 1 outs.length given.tail := by
    intro h
    cases given with
    | nil => exact ⟨by simp, trivial⟩
    | cons g given =>
      obtain ⟨hg, hrest⟩ := h window size
      exact ⟨by simpa using hg, head.length_eq ▸ hrest⟩
  refine ⟨List.forall_mem_cons.mpr ⟨head.complete, tail.complete⟩, tail.shape, ?_, fun x hx => ?_,
    fun h => ?_, fun h k hk => ?_, fun {op e} hop c τ bits hc hpooled hbits => ?_⟩
  · refine head.sketched.step tail.sketched ?_ ?_ (by simp) (by simp) (fun x hx => by simp [hx])
      (by simp)
    · cases given <;> simp
    · cases given <;> simp
  · exact mem_preorder_of_mem_preorderAll (head.uses x (by simpa using hx)) tail.uses
  · intro window' hwindow'
    obtain rfl : window = window' := Except.ok.inj (size.symm.trans hwindow')
    obtain ⟨hfirst, hrest⟩ := hneeded h
    exact ⟨head.needed hfirst, head.length_eq ▸ tail.needed hrest⟩
  · obtain ⟨hfirst, hrest⟩ := hneeded h
    rw [List.flatMap_cons, List.mem_append] at hk
    rcases hk with hk | hk
    · exact mem_preorder_of_mem_preorderAll (head.wires hfirst k hk) tail.uses
    · exact tail.wires hrest k hk
  · rw [List.flatMap_cons] at hc
    have hhead := hc.mono (List.subset_append_left _ _)
    have htail := hc.mono (List.subset_append_right r.holes _)
    obtain ⟨values, hvalues, hfold⟩ := head.eval_pooled heven hop hhead (hpooled r (by simp))
      (.cons hbits .nil)
    rw [tail.eval hop c τ values htail (fun q hq => hpooled q (by simp [hq])) hvalues, hfold]
    simp

/-- A row that is reduced: each level packs the outputs of the level before it, until a single bit
is left. -/
inductive Folded (p : Platform) (share : Bool) :
    List Expr → List RowProgram → Nat → Expr → List RowProgram → Nat → Prop
  | single {bit : Expr} {given : List RowProgram} {next : Nat} (shape : bit.shape = .word 1) :
      Folded p share [bit] given next bit [] next
  | further {row outs : List Expr} {given programs : List RowProgram} {bit : Expr} {window : Count}
      {r : RowProgram} {used : List LutProgram} {next mid last : Nat} (several : row.length ≠ 1)
      (even : Row.Even row.length [row]) (complete : ∀ g ∈ given.head?, g.Complete)
      (size : p.window 1 false = .ok window)
      (packed : Row.packBits p [row] given.head? share false next = .ok ((outs, r), mid))
      (spec : Row.PackSpec row.length [row] given.head? share window.value next outs r used mid)
      (rest : Folded p share outs given.tail mid bit programs last) :
      Folded p share row given next bit (r :: programs) last

theorem folded_of_fold (ne : row ≠ []) (bits : ∀ x ∈ row, x.shape = .word 1)
    (hgiven : ∀ g ∈ given, g.Complete)
    (h : fold p share levels row given next = .ok ((bit, programs), last)) :
    Folded p share row given next bit programs last := by
  induction levels generalizing row given next programs with
  | zero =>
    by_cases hone : row.length = 1
    · obtain ⟨x, rfl⟩ := List.length_eq_one_iff.mp hone
      cases h
      exact .single (bits _ (by simp))
    · rw [fold_zero p share given hone] at h
      cases h
  | succ levels ih =>
    by_cases hone : row.length = 1
    · obtain ⟨x, rfl⟩ := List.length_eq_one_iff.mp hone
      cases h
      exact .single (bits _ (by simp))
    · rw [fold_succ p share levels given hone] at h
      obtain ⟨⟨outs, r⟩, t, houts, h⟩ := of_bind h
      obtain ⟨⟨bit', rest⟩, t', hrest, h⟩ := of_bind h
      cases h
      have heven := even_singleton ne bits
      have hhead : ∀ g ∈ given.head?, g.Complete := fun g hg => hgiven g (List.mem_of_head? hg)
      obtain ⟨window, used, hwindow, hspec⟩ := Row.packBits_spec heven hhead houts
      exact .further hone heven hhead hwindow houts hspec (ih (hspec.outs_ne heven) hspec.shape
        (fun g hg => hgiven g (List.mem_of_mem_tail hg)) hrest)

theorem Folded.spec (h : Folded p share row given next bit programs last) :
    FoldSpec p row given next bit programs last := by
  induction h with
  | single shape => exact foldSpec_singleton shape _
  | further _ even _ size _ spec _ ih => exact .cons even size spec ih

theorem forall₂_eq_iff {α : Type} {P : α → Prop} {xs ys : List α} :
    List.Forall₂ (fun x y => y = x ∧ P x) xs ys ↔ ys = xs ∧ ∀ x ∈ xs, P x := by
  constructor
  · intro h
    induction h with
    | nil => simp
    | cons hxy _ ih =>
      obtain ⟨rfl, hx⟩ := hxy
      obtain ⟨rfl, hrest⟩ := ih
      exact ⟨rfl, List.forall_mem_cons.mpr ⟨hx, hrest⟩⟩
  · rintro ⟨rfl, h⟩
    exact List.forall₂_same.mpr fun x hx => ⟨rfl, h x hx⟩

theorem mapM_bitOf {row ys : List Expr} :
    (row.map Operand.expr).mapM Row.bitOf = .ok ys ↔ ys = row ∧ ∀ x ∈ row, x.shape = .word 1 := by
  rw [mapM_eq_ok, List.forall₂_map_left_iff, ← forall₂_eq_iff]
  have hbit : ∀ x y : Expr, Row.bitOf (.expr x) = .ok y ↔ y = x ∧ x.shape = .word 1 := by
    intro x y
    rw [Row.bitOf]
    split
    · next h => simp [h, eq_comm]
    · next h => simp [h]
  simp only [hbit]

/-- Rows pass the check if they are rows of single bits, at least one, of one length above zero. -/
theorem check_expr {rows rows' : List (List Expr)} :
    Row.check (rows.map fun row => row.map .expr) = .ok rows' ↔
      rows' = rows ∧ ∃ length, Row.Even length rows := by
  cases rows with
  | nil =>
    constructor
    · intro h
      cases h
    · rintro ⟨-, length, h⟩
      exact absurd rfl h.ne
  | cons first rest =>
    have hmapM : ((first :: rest).map fun row => row.map Operand.expr).mapM
        (fun row => row.mapM Row.bitOf) = .ok rows' ↔
          rows' = first :: rest ∧ ∀ row ∈ first :: rest, ∀ x ∈ row, x.shape = .word 1 := by
      rw [mapM_eq_ok, List.forall₂_map_left_iff, ← forall₂_eq_iff]
      simp only [mapM_bitOf]
    rw [List.map_cons, Row.check]
    constructor
    · intro h
      split at h
      · cases h
      · next hlen =>
        obtain ⟨rfl, hbits⟩ := hmapM.mp h
        simp only [List.length_map, List.any_map, not_or] at hlen
        refine ⟨rfl, first.length, by omega, by simp, ?_, hbits⟩
        have hrest : ∀ row ∈ rest, row.length = first.length := by simpa using hlen.2
        exact List.forall_mem_cons.mpr ⟨rfl, hrest⟩
    · rintro ⟨rfl, length, heven⟩
      have hfirst : first.length = length := heven.same first (by simp)
      have hrest : ∀ row ∈ rest, row.length = length := fun row hrow => heven.same row (by simp [hrow])
      have hpos := heven.pos
      rw [if_neg, ← List.map_cons (f := List.map Operand.expr)]
      · exact hmapM.mpr ⟨rfl, heven.bits⟩
      · simp only [List.length_map, List.any_map, not_or]
        refine ⟨by omega, ?_⟩
        simpa [hfirst] using hrest

/-- What passes the check are rows of expressions. -/
theorem of_check {rows : List (List Operand)} {checked : List (List Expr)}
    (h : Row.check rows = .ok checked) : rows = checked.map fun row => row.map .expr := by
  have hbit : ∀ (o : Operand) (x : Expr), Row.bitOf o = .ok x → o = .expr x := by
    intro o x hx
    unfold Row.bitOf at hx
    split at hx
    · split at hx
      · cases hx
        rfl
      · cases hx
    · cases hx
  have hmapM : rows.mapM (fun row => row.mapM Row.bitOf) = .ok checked := by
    unfold Row.check at h
    split at h
    · cases h
    · split at h
      · cases h
      · exact h
  have hrows : List.Forall₂ (fun row xs => row = List.map Operand.expr xs) rows checked := by
    refine (mapM_eq_ok.mp hmapM).imp fun row xs hrow => ?_
    have hrow := (mapM_eq_ok.mp hrow).imp hbit
    exact List.forall₂_eq_eq_eq ▸ List.forall₂_map_right_iff.mpr hrow
  exact List.forall₂_eq_eq_eq ▸ List.forall₂_map_right_iff.mpr hrows

section Reduce

variable {length : Nat} {rows : List (List Expr)} {given : Option ReductionProgram}
  {s : ReductionProgram}

/-- The levels handed in for a reduction. -/
def handedLevels (given : Option ReductionProgram) : List RowProgram :=
  (given.map ReductionProgram.levels).getD []

theorem complete_handedLevels (hgiven : ∀ g ∈ given, g.Complete) :
    ∀ g ∈ handedLevels given, g.Complete := by
  cases given with
  | none => simp [handedLevels]
  | some g => exact hgiven g rfl

/-- Rows reduced to one bit: the rows are packed once and the outputs reduced further. -/
structure ReduceSpec (p : Platform) (length : Nat) (rows : List (List Expr))
    (given : Option ReductionProgram) (share : Bool) (next : Nat) (bit : Expr)
    (s : ReductionProgram) (last : Nat) : Prop where
  even : Row.Even length rows
  levels : ∃ (window : Count) (used : List LutProgram) (outs : List Expr) (mid : Nat)
    (r : RowProgram) (rs : List RowProgram), s.levels = r :: rs ∧
      p.window rows.length false = .ok window ∧
        Row.PackSpec length rows (handedLevels given).head? share window.value next outs r used mid ∧
          FoldSpec p outs (handedLevels given).tail mid bit rs last

/-- Rows that pass the check are reduced by packing them and reducing the outputs. -/
theorem reduce_eq_bind (heven : Row.Even length rows) (given : Option ReductionProgram)
    (next : Nat) : reduce p (rows.map fun row => row.map .expr) given share next =
      (Row.packBits p rows (handedLevels given).head? share false >>= fun q =>
        fold p share (furtherLevels p.maxLut q.1.length) q.1 (handedLevels given).tail >>= fun f =>
          pure (f.1, (⟨q.2 :: f.2⟩ : ReductionProgram))) next := by
  have hrun : Row.pack p (rows.map fun row => row.map .expr) (handedLevels given).head? share false
      next = Row.packBits p rows (handedLevels given).head? share false next := by
    rw [Row.pack, bind_of_ok (lift_of_ok (check_expr.mpr ⟨rfl, length, heven⟩))]
  show (Row.pack p (rows.map fun row => row.map .expr) (handedLevels given).head? share false >>=
    fun q => fold p share (furtherLevels p.maxLut q.1.length) q.1 (handedLevels given).tail >>=
      fun f => pure (f.1, (⟨q.2 :: f.2⟩ : ReductionProgram))) next = _
  simp only [Bind.bind, StateT.bind, hrun]

/-- When rows are reduced to one bit, and by which programs. -/
theorem reduce_eq_ok (heven : Row.Even length rows) :
    reduce p (rows.map fun row => row.map .expr) given share next = .ok ((bit, s), last) ↔
      ∃ outs r rs t, s = ⟨r :: rs⟩ ∧
        Row.packBits p rows (handedLevels given).head? share false next = .ok ((outs, r), t) ∧
          fold p share (furtherLevels p.maxLut outs.length) outs (handedLevels given).tail t =
            .ok ((bit, rs), last) := by
  rw [reduce_eq_bind heven]
  constructor
  · intro h
    obtain ⟨⟨outs, r⟩, t, hpack, h⟩ := of_bind h
    obtain ⟨⟨bit', rs⟩, t', hfold, h⟩ := of_bind h
    cases h
    exact ⟨outs, r, rs, t, rfl, hpack, hfold⟩
  · rintro ⟨outs, r, rs, t, rfl, hpack, hfold⟩
    rw [bind_of_ok hpack, bind_of_ok hfold]
    rfl

/-- Only rows of single bits, all of one length, are reduced. -/
theorem even_of_reduce {rows : List (List Operand)}
    (h : reduce p rows given share next = .ok ((bit, s), last)) :
    ∃ words length, rows = words.map (fun row => row.map .expr) ∧ Row.Even length words := by
  obtain ⟨_, t, hrun, -⟩ := of_bind h
  obtain ⟨words, _, hrows, -⟩ := of_bind hrun
  obtain ⟨hcheck, rfl⟩ := of_lift hrows
  obtain rfl := of_check hcheck
  obtain ⟨-, length, heven⟩ := check_expr.mp hcheck
  exact ⟨words, length, rfl, heven⟩

/-- Rows of expressions that are reduced are single bits, all of one length. -/
theorem exists_even_of_reduce
    (h : reduce p (rows.map fun row => row.map .expr) given share next = .ok ((bit, s), last)) :
    ∃ length, Row.Even length rows := by
  obtain ⟨words, length, hrows, heven⟩ := even_of_reduce h
  have hexpr : Function.Injective fun row : List Expr => row.map Operand.expr :=
    List.map_injective_iff.mpr fun _ _ => Operand.expr.inj
  exact ⟨length, List.map_injective_iff.mpr hexpr hrows ▸ heven⟩

theorem reduce_spec (hgiven : ∀ g ∈ given, g.Complete)
    (h : reduce p (rows.map fun row => row.map .expr) given share next = .ok ((bit, s), last)) :
    ∃ length, ReduceSpec p length rows given share next bit s last := by
  obtain ⟨length, heven⟩ := exists_even_of_reduce h
  obtain ⟨outs, r, rs, t, rfl, hpack, hfold⟩ := (reduce_eq_ok heven).mp h
  have hlevels := complete_handedLevels hgiven
  obtain ⟨window, used, hwindow, hspec⟩ :=
    Row.packBits_spec heven (fun g hg => hlevels g (List.mem_of_head? hg)) hpack
  have hrest := folded_of_fold (hspec.outs_ne heven) hspec.shape
    (fun g hg => hlevels g (List.mem_of_mem_tail hg)) hfold
  exact ⟨length, heven, window, used, outs, t, r, rs, rfl, hwindow, hspec, hrest.spec⟩

namespace ReduceSpec

variable (h : ReduceSpec p length rows given share next bit s last)

include h

theorem complete : s.Complete := by
  obtain ⟨window, used, outs, mid, r, rs, hlevels, -, hpack, hfold⟩ := h.levels
  rw [ReductionProgram.Complete, hlevels]
  exact List.forall_mem_cons.mpr ⟨hpack.complete, hfold.complete⟩

theorem shape : bit.shape = .word 1 := by
  obtain ⟨window, used, outs, mid, r, rs, -, -, -, hfold⟩ := h.levels
  exact hfold.shape

theorem sketched : Sketched rows.flatten ((given.map ReductionProgram.holes).getD []) s.holes next
    last [bit] := by
  obtain ⟨window, used, outs, mid, r, rs, hlevels, -, hpack, hfold⟩ := h.levels
  have hholes : s.holes = r.holes ++ rs.flatMap RowProgram.holes := by
    rw [ReductionProgram.holes, hlevels, List.flatMap_cons]
  have hgiven : (given.map ReductionProgram.holes).getD [] =
      (handedLevels given).flatMap RowProgram.holes := by
    cases given <;> rfl
  rw [hholes, hgiven]
  refine hpack.sketched.step hfold.sketched ?_ ?_ (by simp) (List.Subset.refl _)
    (fun x hx => by simp [hx]) (by simp)
  · cases handedLevels given <;> simp
  · cases handedLevels given <;> simp

theorem uses : ∀ x ∈ rows.flatten, x ∈ bit.preorder := by
  intro x hx
  obtain ⟨window, used, outs, mid, r, rs, -, -, hpack, hfold⟩ := h.levels
  exact mem_preorder_of_mem_preorderAll (hpack.uses x hx) hfold.uses

theorem needed_wires (hgiven : ∀ g ∈ given, LevelsNeeded p rows.length length g.levels) :
    LevelsNeeded p rows.length length s.levels ∧ ∀ k ∈ s.holes, .hole k ∈ bit.preorder := by
  obtain ⟨window, used, outs, mid, r, rs, hlevels, hwindow, hpack, hfold⟩ := h.levels
  have hneeded : (∀ g ∈ (handedLevels given).head?, g.Needed length window.value) ∧
      LevelsNeeded p 1 outs.length (handedLevels given).tail := by
    cases given with
    | none => exact ⟨by simp [handedLevels], trivial⟩
    | some g =>
      have hg := hgiven g rfl
      obtain ⟨levels⟩ := g
      cases levels with
      | nil => exact ⟨by simp [handedLevels], trivial⟩
      | cons q qs =>
        obtain ⟨hq, hqs⟩ := hg window hwindow
        exact ⟨by simpa [handedLevels] using hq, hpack.length_eq ▸ hqs⟩
  constructor
  · rw [hlevels]
    intro window' hwindow'
    obtain rfl : window = window' := Except.ok.inj (hwindow.symm.trans hwindow')
    exact ⟨hpack.needed hneeded.1, hpack.length_eq ▸ hfold.needed hneeded.2⟩
  · intro k hk
    rw [ReductionProgram.holes, hlevels, List.flatMap_cons, List.mem_append] at hk
    rcases hk with hk | hk
    · exact mem_preorder_of_mem_preorderAll (hpack.wires hneeded.1 k hk) hfold.uses
    · exact hfold.wires hneeded.2 k hk

/-- If every table pools the bits that it reads, the result pools all bits of the rows. -/
theorem eval_pooled {op : Bool → Bool → Bool} {e : Bool} (hop : Pools op e) {c : Context Bool}
    {τ : Hole → Bool} (hc : c.Settles τ s.holes) (hs : ∀ r ∈ s.levels, r.PooledBy τ op e)
    {vals : List (List Bool)}
    (hvals : List.Forall₂ (List.Forall₂ fun x b => eval c x = .ok (.word [b])) rows vals) :
    eval c bit = .ok (.word [vals.flatten.foldr op e]) := by
  obtain ⟨window, used, outs, mid, r, rs, hlevels, -, hpack, hfold⟩ := h.levels
  rw [hlevels] at hs
  rw [ReductionProgram.holes, hlevels, List.flatMap_cons] at hc
  have hhead := hc.mono (List.subset_append_left _ _)
  have htail := hc.mono (List.subset_append_right r.holes _)
  obtain ⟨bits, hbits, hpooled⟩ := hpack.eval_pooled h.even hop hhead (hs r (by simp)) hvals
  rw [hfold.eval hop c τ bits htail (fun q hq => hs q (by simp [hq])) hbits, hpooled]

end ReduceSpec

end Reduce

end Reduction
end CircuitSketch
