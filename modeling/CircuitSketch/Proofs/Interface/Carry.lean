import CircuitSketch.Proofs.Interface.Wire
import CircuitSketch.Proofs.Template.Sketched

/-!
# Placed carry chains

A carry chain is placed in blocks, each of which takes a slice of both words and hands its carry to
the next one. The invariant of the loop is that the blocks from a position on yield what one chain
over the rest of the words yields, so the sizes of the blocks make no difference.
-/
namespace CircuitSketch.Platform

open CircuitSketch.Expr Build

variable {unit : CarryUnit} {ci di s sum co : Expr} {w lo next last : Nat} {sums : List Expr}

/-- One block of a chain, between words of `n` positions. -/
def chainBlock (style : CarryStyle) (t n : Nat) (ci d e : Expr) : Expr :=
  .node t (.carry style n) (.group [("O", n), ("CO", 1)]) [ci, d, e]

/-- The bits of a block. -/
def blockSum (style : CarryStyle) (t n : Nat) (ci d e : Expr) : Expr :=
  .node (t + 1) (.output "O") (.word n) [chainBlock style t n ci d e]

/-- The carry out of a block. -/
def blockOut (style : CarryStyle) (t n : Nat) (ci d e : Expr) : Expr :=
  .node (t + 2) (.output "CO") (.word 1) [chainBlock style t n ci d e]

section Block

variable {style : CarryStyle} {t n : Nat} {d e : Expr}

theorem grown_chainBlock (pos : 0 < n) (hci : ci.shape = .word 1) (hd : d.shape = .word n)
    (he : e.shape = .word n) : GrownFrom [ci, d, e] (chainBlock style t n ci d e) := by
  have hshapes : [ci, d, e].map Expr.shape = [1, n, n].map .word := by simp [hci, hd, he]
  refine .operation ?_ ?_ fun x hx => .operand hx
  · rw [hshapes]
    exact .primitive rfl (by simp [pos])
  · rw [hshapes]
    exact Op.total_carry style n

theorem grown_blockSum (pos : 0 < n) (hci : ci.shape = .word 1) (hd : d.shape = .word n)
    (he : e.shape = .word n) : GrownFrom [ci, d, e] (blockSum style t n ci d e) := by
  refine .operation (.output rfl) (Op.total_output rfl) fun x hx => ?_
  rw [List.mem_singleton] at hx
  exact hx ▸ grown_chainBlock pos hci hd he

theorem grown_blockOut (pos : 0 < n) (hci : ci.shape = .word 1) (hd : d.shape = .word n)
    (he : e.shape = .word n) : GrownFrom [ci, d, e] (blockOut style t n ci d e) := by
  refine .operation (.output rfl) (Op.total_output rfl) fun x hx => ?_
  rw [List.mem_singleton] at hx
  exact hx ▸ grown_chainBlock pos hci hd he

theorem mem_block {x y : Expr} (hy : y ∈ [ci, d, e]) (hx : x ∈ y.preorder) :
    x ∈ (blockSum style t n ci d e).preorder ∧ x ∈ (blockOut style t n ci d e).preorder := by
  have hblock : x ∈ (chainBlock style t n ci d e).preorder :=
    mem_preorder_node.mpr (.inr ⟨y, hy, hx⟩)
  exact ⟨mem_preorder_node.mpr (.inr ⟨_, List.mem_singleton_self _, hblock⟩),
    mem_preorder_node.mpr (.inr ⟨_, List.mem_singleton_self _, hblock⟩)⟩

variable {β : Type} [BitAlgebra β] {c : Context β}

theorem eval_block (t : Nat) (style : CarryStyle) (hc : c.modules = Primitive.standard) {bit : β}
    {ds es : List β} (hn : ds.length = n) (same : es.length = ds.length)
    (hci : eval c ci = .ok (.word [bit])) (hd : eval c d = .ok (.word ds))
    (he : eval c e = .ok (.word es)) :
    eval c (blockSum style t n ci d e) = .ok (.word (style.chain bit (ds.zip es)).1) ∧
      eval c (blockOut style t n ci d e) = .ok (.word [(style.chain bit (ds.zip es)).2]) := by
  have hblock : eval c (chainBlock style t n ci d e) = _ :=
    (eval_node_of_args (.cons hci (.cons hd (.cons he .nil)))).trans
      (hn ▸ Op.eval_carry hc style bit same)
  constructor
  · rw [blockSum, eval_node_of_args (.cons hblock .nil)]
    rfl
  · rw [blockOut, eval_node_of_args (.cons hblock .nil)]
    rfl

end Block

/-- What the blocks of a chain from position `lo` on yield. -/
structure BlocksSpec (style : CarryStyle) (ci di s : Expr) (w lo next : Nat) (sums : List Expr)
    (co : Expr) (last : Nat) : Prop where
  le : next ≤ last
  words : ∀ x ∈ sums, x.isWord
  width : (sums.map Expr.width).sum = w - lo
  shape : co.shape = .word 1
  grown : ∀ y ∈ co :: sums, GrownFrom [ci, di, s] y
  uses_sums : lo < w → ∀ x ∈ [ci, di, s], x ∈ preorderAll sums
  uses_out : ∀ x ∈ ci :: (if lo < w then [di, s] else []), x ∈ co.preorder
  eval : ∀ {β : Type} [BitAlgebra β] (c : Context β) (bit : β) (ds es : List β),
    c.modules = Primitive.standard → eval c ci = .ok (.word [bit]) →
      eval c di = .ok (.word ds) → eval c s = .ok (.word es) → ds.length = w → es.length = w →
        (∃ words, List.Forall₂ (fun x b => eval c x = .ok (.word b)) sums words ∧
          words.flatten = (style.chain bit ((ds.zip es).drop lo)).1) ∧
        eval c co = .ok (.word [(style.chain bit ((ds.zip es).drop lo)).2])

theorem blocksSpec_nil {style : CarryStyle} (hci : ci.shape = .word 1) (hlo : w ≤ lo) :
    BlocksSpec style ci di s w lo next [] ci next where
  le := le_rfl
  words := by simp
  width := by simp; omega
  shape := hci
  grown := by simpa using .operand (by simp)
  uses_sums h := by omega
  uses_out := by simp [if_neg (show ¬ lo < w by omega), mem_preorder_self]
  eval c bit ds es _ hbit _ _ hds hes := by
    have hnil : (ds.zip es).drop lo = [] := List.drop_of_length_le (by simp; omega)
    rw [hnil]
    cases style <;> exact ⟨⟨[], .nil, rfl⟩, hbit⟩

section Slices

variable (style : CarryStyle) (t : Nat) {n : Nat} {d e : Expr} (pos : 0 < n) (hlo : lo + n ≤ w)
  (hd : Cut di lo (lo + n - 1) d) (he : Cut s lo (lo + n - 1) e)

include pos in
theorem shape_of_slice (hd : Cut di lo (lo + n - 1) d) : d.shape = .word n := by
  rw [hd.shape]
  congr 1
  omega

include pos hd he

/-- A block between slices of two words grows from the words. -/
theorem grown_block_slices (hci : ci.shape = .word 1) :
    GrownFrom [ci, di, s] (blockSum style t n ci d e) ∧
      GrownFrom [ci, di, s] (blockOut style t n ci d e) := by
  have hlift : ∀ x ∈ [ci, d, e], GrownFrom [ci, di, s] x := by
    intro x hx
    simp only [List.mem_cons, List.not_mem_nil, or_false] at hx
    rcases hx with rfl | rfl | rfl
    · exact .operand (by simp)
    · exact hd.grown.mono (by simp) (fun _ h => h) (fun _ h => h)
    · exact he.grown.mono (by simp) (fun _ h => h) (fun _ h => h)
  have hds := shape_of_slice pos hd
  have hes := shape_of_slice pos he
  exact ⟨(grown_blockSum pos hci hds hes).trans hlift (fun _ h => h) (fun _ h => h),
    (grown_blockOut pos hci hds hes).trans hlift (fun _ h => h) (fun _ h => h)⟩

omit pos in
theorem mem_block_slices {x : Expr} (hx : x ∈ [ci, di, s]) :
    x ∈ (blockSum style t n ci d e).preorder ∧ x ∈ (blockOut style t n ci d e).preorder := by
  simp only [List.mem_cons, List.not_mem_nil, or_false] at hx
  rcases hx with rfl | rfl | rfl
  · exact mem_block (y := x) (by simp) x.mem_preorder_self
  · exact mem_block (y := d) (by simp) hd.uses
  · exact mem_block (y := e) (by simp) he.uses

include hlo

/-- A block between slices of two words is a chain over a part of the words. -/
theorem eval_block_slices {β : Type} [BitAlgebra β] {c : Context β} {bit : β} {ds es : List β}
    (hdi : di.shape = .word w) (hs : s.shape = .word w) (hc : c.modules = Primitive.standard)
    (hci : eval c ci = .ok (.word [bit])) (hdv : eval c di = .ok (.word ds))
    (hsv : eval c s = .ok (.word es)) (hdlen : ds.length = w) (hslen : es.length = w) :
    eval c (blockSum style t n ci d e) =
        .ok (.word (style.chain bit (((ds.zip es).drop lo).take n)).1) ∧
      eval c (blockOut style t n ci d e) =
        .ok (.word [(style.chain bit (((ds.zip es).drop lo).take n)).2]) := by
  have hn : lo + n - 1 + 1 - lo = n := by omega
  have hdcut := hd.eval c ds hdv (hdlen.trans (width_of_shape hdi).symm)
  have hscut := he.eval c es hsv (hslen.trans (width_of_shape hs).symm)
  rw [hn] at hdcut hscut
  have hdl : ((ds.drop lo).take n).length = n := by
    rw [List.length_take, List.length_drop]
    omega
  have hsl : ((es.drop lo).take n).length = ((ds.drop lo).take n).length := by
    rw [hdl, List.length_take, List.length_drop]
    omega
  have hzip : ((ds.drop lo).take n).zip ((es.drop lo).take n) = ((ds.zip es).drop lo).take n := by
    simp only [List.zip_eq_zipWith, List.take_zipWith, List.drop_zipWith]
  rw [← hzip]
  exact eval_block t style hc hdl hsl hci hdcut hscut

end Slices

/-- One block in front of those that follow. -/
theorem blocksSpec_cons {style : CarryStyle} {t n : Nat} {d e : Expr} {mid : Nat}
    (hci : ci.shape = .word 1) (hdi : di.shape = .word w) (hs : s.shape = .word w) (pos : 0 < n)
    (hlo : lo + n ≤ w) (hd : Cut di lo (lo + n - 1) d) (he : Cut s lo (lo + n - 1) e)
    (hnext : next ≤ mid) {lo' : Nat} (hlo' : lo + n = min lo' w)
    (rest : BlocksSpec style (blockOut style t n ci d e) di s w lo' mid sums co last) :
    BlocksSpec style ci di s w lo next (blockSum style t n ci d e :: sums) co last := by
  obtain ⟨hsum, hout⟩ := grown_block_slices style t pos hd he hci
  have hrest : ∀ y ∈ co :: sums, GrownFrom [ci, di, s] y := by
    refine fun y hy => (rest.grown y hy).trans (fun x hx => ?_) (fun _ h => h) (fun _ h => h)
    simp only [List.mem_cons, List.not_mem_nil, or_false] at hx
    rcases hx with rfl | rfl | rfl
    · exact hout
    · exact .operand (by simp)
    · exact .operand (by simp)
  refine ⟨hnext.trans rest.le, ?_, ?_, rest.shape, ?_, ?_, ?_, ?_⟩
  · simpa using ⟨rfl, rest.words⟩
  · have hwidth : (blockSum style t n ci d e).width = n := rfl
    rw [List.map_cons, List.sum_cons, rest.width, hwidth]
    omega
  · intro y hy
    simp only [List.mem_cons] at hy
    rcases hy with rfl | rfl | hy
    · exact hrest y (by simp)
    · exact hsum
    · exact hrest y (by simp [hy])
  · intro _ x hx
    exact mem_preorderAll.mpr ⟨_, List.mem_cons_self, (mem_block_slices style t hd he hx).1⟩
  · intro x hx
    rw [if_pos (by omega)] at hx
    exact mem_preorder_trans (mem_block_slices style t hd he hx).2 (rest.uses_out _ List.mem_cons_self)
  · intro β _ c bit ds es hc hbit hdv hsv hdlen hslen
    obtain ⟨hsumv, houtv⟩ := eval_block_slices style t pos hlo hd he hdi hs hc
      hbit hdv hsv hdlen hslen
    obtain ⟨⟨words, hwords, hflat⟩, hco⟩ := rest.eval c _ ds es hc houtv hdv hsv hdlen hslen
    -- the blocks that follow start where this one ends, or beyond both words
    have hdrop : (ds.zip es).drop lo' = ((ds.zip es).drop lo).drop n := by
      rw [List.drop_drop]
      by_cases h : lo' ≤ w
      · congr 1
        omega
      · rw [List.drop_of_length_le (by simp; omega), List.drop_of_length_le (by simp; omega)]
    have hsplit : (ds.zip es).drop lo =
        ((ds.zip es).drop lo).take n ++ (ds.zip es).drop lo' := by
      rw [hdrop, List.take_append_drop]
    rw [hsplit, style.chain_append]
    refine ⟨⟨_ :: words, .cons hsumv hwords, ?_⟩, hco⟩
    rw [List.flatten_cons, hflat]

theorem carryBlocks_spec (hci : ci.shape = .word 1) (hdi : di.shape = .word w)
    (hs : s.shape = .word w)
    (h : carryBlocks unit di s w lo ci next = .ok ((sums, co), last)) :
    BlocksSpec unit.style ci di s w lo next sums co last := by
  induction hn : w - lo using Nat.strong_induction_on generalizing lo ci next sums co with
  | _ n ih =>
    rw [carryBlocks] at h
    split at h
    · next hlt =>
      have hpos := unit.chunk_pos
      obtain ⟨d, t₁, hd, h⟩ := of_bind h
      obtain ⟨e, t₂, he, h⟩ := of_bind h
      obtain ⟨placed, t₃, hplaced, h⟩ := of_bind h
      cases hplaced
      obtain ⟨sum, t₄, hsum, h⟩ := of_bind h
      cases hsum
      obtain ⟨out, t₅, hout, h⟩ := of_bind h
      cases hout
      obtain ⟨⟨rest, co'⟩, t₆, hrest, h⟩ := of_bind h
      cases h
      obtain ⟨hle₁, hd⟩ := of_slice hdi (by omega) (by omega) hd
      obtain ⟨hle₂, he⟩ := of_slice hs (by omega) (by omega) he
      have hsize : min (lo + unit.chunk.value) w - 1 + 1 - lo =
          min (lo + unit.chunk.value) w - lo := by omega
      have hhi : min (lo + unit.chunk.value) w - 1 =
          lo + (min (lo + unit.chunk.value) w - lo) - 1 := by omega
      rw [hhi] at hd he
      rw [hsize] at hrest ⊢
      have hnext : next ≤ t₂ + 1 + 1 + 1 := by omega
      exact blocksSpec_cons hci hdi hs (by omega) (by omega) hd he hnext (by omega)
        (ih _ (by omega) rfl hrest rfl)
    · next hge =>
      cases h
      exact blocksSpec_nil hci (by omega)

theorem succeeds_carryBlocks (unit : CarryUnit) (di s : Expr) (w lo : Nat) (ci : Expr) :
    Succeeds (carryBlocks unit di s w lo ci) := by
  induction hn : w - lo using Nat.strong_induction_on generalizing lo ci with
  | _ n ih =>
    rw [carryBlocks]
    split
    · next hlt =>
      have hpos := unit.chunk_pos
      refine (succeeds_slice _ _ _).bind fun d _ _ _ => (succeeds_slice _ _ _).bind fun e _ _ _ => ?_
      refine (succeeds_node _ _ _).bind fun placed _ _ _ => ?_
      refine (succeeds_node _ _ _).bind fun sum _ _ _ => (succeeds_node _ _ _).bind fun out _ _ _ => ?_
      exact (ih _ (by omega) _ _ rfl).bind fun rest _ _ _ => succeeds_pure _
    · exact succeeds_pure _

/-- The sum and the carry out of a chain between two words of `w` positions. -/
structure ChainOutput (style : CarryStyle) (ci di s : Expr) (w : Nat) (sum co : Expr) : Prop where
  shape_sum : sum.shape = .word w
  shape_out : co.shape = .word 1
  grown : ∀ y ∈ [sum, co], GrownFrom [ci, di, s] y
  uses : ∀ x ∈ [ci, di, s], x ∈ sum.preorder ∧ x ∈ co.preorder
  eval : ∀ {β : Type} [BitAlgebra β] (c : Context β) (bit : β) (ds es : List β),
    c.modules = Primitive.standard → eval c ci = .ok (.word [bit]) →
      eval c di = .ok (.word ds) → eval c s = .ok (.word es) → ds.length = w → es.length = w →
        eval c sum = .ok (.word (style.chain bit (ds.zip es)).1) ∧
          eval c co = .ok (.word [(style.chain bit (ds.zip es)).2])

theorem BlocksSpec.output {style : CarryStyle} (hw : 0 < w)
    (h : BlocksSpec style ci di s w 0 next sums co last) (join : Join sums sum) :
    ChainOutput style ci di s w sum co where
  shape_sum := by rw [join.shape, h.width, Nat.sub_zero]
  shape_out := h.shape
  grown y hy := by
    simp only [List.mem_cons, List.not_mem_nil, or_false] at hy
    rcases hy with rfl | rfl
    · exact join.grown.trans (fun x hx => h.grown x (by simp [hx])) (fun _ h => h) (fun _ h => h)
    · exact h.grown _ (by simp)
  uses x hx := by
    refine ⟨mem_preorder_of_mem_preorderAll (h.uses_sums hw x hx) join.uses, h.uses_out x ?_⟩
    rwa [if_pos hw]
  eval c bit ds es hc hbit hd hs hds hes := by
    obtain ⟨⟨words, hwords, hflat⟩, hco⟩ := h.eval c bit ds es hc hbit hd hs hds hes
    refine ⟨?_, hco⟩
    rw [join.eval c words hwords, hflat, List.drop_zero]

/-- Blocks that are joined are a chain. -/
theorem chainOutput_of_blocks {mid : Nat} (hw : 1 ≤ w) (hci : ci.shape = .word 1)
    (hdi : di.shape = .word w) (hs : s.shape = .word w)
    (hblocks : carryBlocks unit di s w 0 ci next = .ok ((sums, co), mid))
    (hjoin : (concatBits sums : Build Refusal Expr) mid = .ok (sum, last)) :
    next ≤ last ∧ ChainOutput unit.style ci di s w sum co := by
  have hspec := carryBlocks_spec hci hdi hs hblocks
  have hne : sums ≠ [] := by
    rintro rfl
    have hwidth := hspec.width
    simp only [List.map_nil, List.sum_nil] at hwidth
    omega
  obtain ⟨hle, hjoin⟩ := of_concatBits hspec.words hne hjoin
  exact ⟨hspec.le.trans hle, hspec.output hw hjoin⟩

variable {p : Platform} {width : Datum} {given : Option CarryProgram} {program : CarryProgram}

theorem positive_carry {n : Nat} :
    (Request.carry width).positive "width" = .ok n ↔ width.positive? = some n :=
  Request.positive_eq_ok rfl

theorem wire_carry {r : Request} {n : Nat} {ys : List Expr} :
    r.wire [("CI", .expr ci), ("DI", .expr di), ("S", .expr s)] [("CI", 1), ("DI", n), ("S", n)] =
        .ok ys ↔
      ys = [ci, di, s] ∧ ci.shape = .word 1 ∧ di.shape = .word n ∧ s.shape = .word n := by
  have h : r.wire (["CI", "DI", "S"].zip ([ci, di, s].map .expr))
      (["CI", "DI", "S"].zip [1, n, n]) = .ok ys ↔ _ :=
    Request.wire_eq_ok (by decide) rfl rfl
  refine Iff.trans h ?_
  simp

/-- The request for a carry chain that platforms with one meet, if they can count up to the size of
its blocks. -/
structure ChainRequest (p : Platform) (unit : CarryUnit) (ci di s : Expr) (width : Datum) (w : Nat)
    (given : Option CarryProgram) : Prop where
  carry : p.carry = some unit
  plain : unit.chunk.pointed = false
  positive : width.positive? = some w
  carryIn : ci.shape = .word 1
  data : di.shape = .word w
  selection : s.shape = .word w
  fits : ∀ g ∈ given, g.width = w

/-- The carry chain that a request is met with. -/
theorem of_buildCarry {r : Request} {ports : List (String × Operand)}
    (h : buildCarry unit r ports given next = .ok ((sum, co, program), last)) :
    ∃ w ci di s sums mid, r.positive "width" = .ok w ∧
      r.wire ports [("CI", 1), ("DI", w), ("S", w)] = .ok [ci, di, s] ∧
        (∀ g ∈ given, g.width = (w : Int)) ∧ unit.chunk.pointed = false ∧ program = ⟨w⟩ ∧
          carryBlocks unit di s w 0 ci next = .ok ((sums, co), mid) ∧
            (concatBits sums : Build Refusal Expr) mid = .ok (sum, last) := by
  rw [buildCarry] at h
  obtain ⟨w, _, hrequest, h⟩ := of_bind h
  obtain ⟨hw, rfl⟩ := of_lift hrequest
  obtain ⟨wired, _, hports, h⟩ := of_bind h
  obtain ⟨hwired, rfl⟩ := of_lift hports
  obtain ⟨ci, di, s, rfl⟩ : ∃ ci di s, wired = [ci, di, s] := by
    rw [← List.length_eq_three, ← (Request.forall₂_of_wire hwired).length_eq]
    rfl
  have htail : ∀ {c : CarryProgram}, ((liftM unit.chunk.checkPlain : Build Refusal Unit) >>= fun _ =>
      carryBlocks unit di s w 0 ci >>= fun r => concatBits r.1 >>= fun sum => (pure (sum, r.2, c) :
        Build Refusal (Expr × Expr × CarryProgram))) next = .ok ((sum, co, program), last) →
          unit.chunk.pointed = false ∧ program = c ∧
            ∃ sums mid, carryBlocks unit di s w 0 ci next = .ok ((sums, co), mid) ∧
              (concatBits sums : Build Refusal Expr) mid = .ok (sum, last) := by
    intro c h
    obtain ⟨hplain, h⟩ := Count.of_checkPlain h
    obtain ⟨⟨sums, co'⟩, mid, hblocks, h⟩ := of_bind h
    obtain ⟨joined, stop, hjoin, h⟩ := of_bind h
    cases h
    exact ⟨hplain, rfl, sums, mid, hblocks, hjoin⟩
  cases given with
  | none =>
    obtain ⟨hplain, hprogram, sums, mid, hblocks, hjoin⟩ := htail h
    exact ⟨w, ci, di, s, sums, mid, hw, hwired, by simp, hplain, hprogram, hblocks, hjoin⟩
  | some g =>
    simp only at h
    split at h
    · next hfits =>
      obtain ⟨hplain, hprogram, sums, mid, hblocks, hjoin⟩ := htail h
      exact ⟨w, ci, di, s, sums, mid, hw, hwired, by simpa using hfits, hplain,
        hprogram.trans (congrArg CarryProgram.mk hfits), hblocks, hjoin⟩
    · cases h

/-- A request whose ports are wired is met with blocks that are joined. -/
theorem buildCarry_of_blocks {r : Request} {ports : List (String × Operand)} {mid : Nat}
    (hwidth : r.positive "width" = .ok w)
    (hwired : r.wire ports [("CI", 1), ("DI", w), ("S", w)] = .ok [ci, di, s])
    (fits : ∀ g ∈ given, g.width = (w : Int)) (plain : unit.chunk.pointed = false)
    (hblocks : carryBlocks unit di s w 0 ci next = .ok ((sums, co), mid))
    (hjoin : (concatBits sums : Build Refusal Expr) mid = .ok (sum, last)) :
    buildCarry unit r ports given next = .ok ((sum, co, ⟨w⟩), last) := by
  have htail : ((liftM unit.chunk.checkPlain : Build Refusal Unit) >>= fun _ =>
      carryBlocks unit di s w 0 ci >>= fun r => concatBits r.1 >>= fun sum =>
        (pure (sum, r.2, ⟨w⟩) : Build Refusal (Expr × Expr × CarryProgram))) next =
          .ok ((sum, co, ⟨w⟩), last) := by
    rw [bind_of_ok (Count.lift_checkPlain plain _), bind_of_ok hblocks]
    exact bind_of_ok hjoin
  rw [buildCarry, bind_of_ok (lift_of_ok hwidth), bind_of_ok (lift_of_ok hwired)]
  cases given with
  | none => exact htail
  | some g =>
    obtain ⟨v⟩ := g
    obtain rfl : v = w := fits _ rfl
    simpa using htail

/-- When a request for a carry chain is met, and by what. -/
theorem carryChain_eq_ok : p.carryChain ci di s width given next = .ok ((sum, co, program), last) ↔
    ∃ unit, ∃ w : Nat, ∃ sums mid, ChainRequest p unit ci di s width w given ∧ program = ⟨w⟩ ∧
      carryBlocks unit di s w 0 ci next = .ok ((sums, co), mid) ∧
        (concatBits sums : Build Refusal Expr) mid = .ok (sum, last) := by
  rw [carryChain]
  constructor
  · intro h
    cases hcarry : p.carry with
    | none =>
      rw [hcarry] at h
      cases h
    | some unit =>
      rw [hcarry] at h
      obtain ⟨w, _, _, _, sums, mid, hw, hwired, hfits, hplain, hprogram, hblocks, hjoin⟩ :=
        of_buildCarry h
      rw [positive_carry] at hw
      obtain ⟨heq, hci, hdi, hs⟩ := wire_carry.mp hwired
      cases heq
      exact ⟨unit, w, sums, mid, ⟨hcarry, hplain, hw, hci, hdi, hs, hfits⟩, hprogram, hblocks,
        hjoin⟩
  · rintro ⟨unit, w, sums, mid, ⟨hcarry, hplain, hw, hci, hdi, hs, hfits⟩, rfl, hblocks, hjoin⟩
    rw [hcarry]
    exact buildCarry_of_blocks (positive_carry.mpr hw) (wire_carry.mpr ⟨rfl, hci, hdi, hs⟩) hfits
      hplain hblocks hjoin

/-- A carry chain that is placed. -/
structure ChainSpec (p : Platform) (ci di s : Expr) (width : Datum) (given : Option CarryProgram)
    (next : Nat) (sum co : Expr) (unit : CarryUnit) (w last : Nat) : Prop where
  le : next ≤ last
  request : ChainRequest p unit ci di s width w given
  output : ChainOutput unit.style ci di s w sum co

theorem carryChain_spec
    (h : p.carryChain ci di s width given next = .ok ((sum, co, program), last)) :
    ∃ unit, ∃ w : Nat, program = ⟨w⟩ ∧
      ChainSpec p ci di s width given next sum co unit w last := by
  obtain ⟨unit, w, sums, mid, hrequest, rfl, hblocks, hjoin⟩ := carryChain_eq_ok.mp h
  have hw := (Datum.positive?_eq_some hrequest.positive).2
  obtain ⟨hle, houtput⟩ := chainOutput_of_blocks hw hrequest.carryIn hrequest.data
    hrequest.selection hblocks hjoin
  exact ⟨unit, w, rfl, hle, hrequest, houtput⟩

/-- Words of the same width can be chained with a new program, or with that of the chain. -/
theorem carryChain_reusable {ci' di' s' : Expr}
    (h : p.carryChain ci di s width given next = .ok ((sum, co, program), last))
    (hci : ci'.shape = ci.shape) (hdi : di'.shape = di.shape) (hs : s'.shape = s.shape)
    (given' : Option CarryProgram) (sized : ∀ g ∈ given', g = program) (next' : Nat) :
    ∃ sum' co' last',
      p.carryChain ci' di' s' width given' next' = .ok ((sum', co', program), last') := by
  obtain ⟨unit, w, sums, mid, hrequest, rfl, -, -⟩ := carryChain_eq_ok.mp h
  obtain ⟨⟨sums', co'⟩, mid', hblocks⟩ := succeeds_carryBlocks unit di' s' w 0 ci' next'
  obtain ⟨sum', last', hjoin⟩ := succeeds_concatBits (ε := Refusal) sums' mid'
  refine ⟨sum', co', last', carryChain_eq_ok.mpr ⟨unit, w, sums', mid', ?_, rfl, hblocks, hjoin⟩⟩
  exact ⟨hrequest.carry, hrequest.plain, hrequest.positive, hci.trans hrequest.carryIn,
    hdi.trans hrequest.data, hs.trans hrequest.selection, fun g hg => by rw [sized g hg]⟩

end CircuitSketch.Platform
