import CircuitSketch.Proofs.Arrangement.Reordering
import CircuitSketch.Proofs.Reduction.LutRow
import CircuitSketch.Template.Bitwise

/-!
# Sketches of bitwise functions

A bitwise sketch consists of three parts: the inputs are extended and cut into positions, which are
laid out; each of them is read by a lookup table; the outputs are brought back into order and
joined. Only the tables can be turned down. Bit `i` of the result is the entry of the common program
that the bits at position `i` spell, whichever way the positions are laid out.
-/
namespace CircuitSketch

open CircuitSketch.Expr Build

/-- A word that fits a width. -/
structure Fits (w : Nat) (e : Expr) : Prop where
  word : e.isWord
  pos : 0 < e.width
  le : e.width ≤ w

theorem Fits.shape {w : Nat} {e : Expr} (h : Fits w e) : e.shape = .word e.width :=
  isWord_iff.mp h.word

theorem fits_of_shape {w : Nat} {e : Expr} (hw : 0 < w) (h : e.shape = .word w) : Fits w e := by
  have hwidth := width_of_shape h
  exact ⟨isWord_of_shape h, by omega, hwidth.le⟩

namespace Template

variable {p : Platform} {w t lo hi next last : Nat} {e x y out : Expr} {es es' wide : List Expr}
  {rs ps ls : List (List Expr)} {c : ArrangementChoice} {given : Option LutProgram} {l : LutProgram}

/-- The selector of an extension. -/
def extensionSelector (t : Nat) : Hole := ⟨t + 2, 1, none⟩

/-- An input extended in either way. -/
def extension (t w : Nat) (e : Expr) : Expr :=
  .choose (t + 3) w (.node t (.zeroExtend w) (.word w) [e])
    (.node (t + 1) (.dupExtend w) (.word w) [e]) (extensionSelector t)

theorem extended_eq (w : Nat) (e : Expr) (t : Nat) :
    extended w e t = .ok (extension t w e, t + 4) := rfl

theorem grown_extension (h : Fits w e) :
    (extension t w e).Grown (· ∈ [e]) (fun _ => False) (· = extensionSelector t) := by
  have hshape : [e].map Expr.shape = [.word e.width] := by rw [List.map_singleton, h.shape]
  refine .choice rfl rfl rfl rfl ?_ ?_
  · refine .operation ?_ ?_ fun a ha => .operand ha
    · rw [hshape]
      exact .zeroExtend h.le
    · rw [hshape]
      exact Op.total_zeroExtend w _
  · refine .operation ?_ ?_ fun a ha => .operand ha
    · rw [hshape]
      exact .dupExtend h.le
    · rw [hshape]
      exact Op.total_dupExtend w _

/-- The bits of an extended input: copies of the top bit are added, or zeros. -/
def widened (w : Nat) (copies : Bool) (bits : List Bool) : List Bool :=
  if copies then dupExtend w bits else zeroExtend w bits

theorem widened_of_length {copies : Bool} {bits : List Bool} (h : bits.length = w) :
    widened w copies bits = bits := by
  cases copies with
  | false => simp [widened, zeroExtend, h]
  | true => cases hlast : bits.getLast? <;> simp [widened, dupExtend, hlast, h]

theorem length_widened {copies : Bool} {bits : List Bool} (pos : 0 < bits.length)
    (h : bits.length ≤ w) : (widened w copies bits).length = w := by
  cases copies with
  | false => exact length_zeroExtend h
  | true => exact length_dupExtend (List.length_pos_iff.mp pos) h

/-- A bit of an extended input is a bit of the input, and past its end a zero or its top bit. -/
theorem getD_widened {copies : Bool} {bits : List Bool} (pos : 0 < bits.length) {i : Nat}
    (hi : i < w) : (widened w copies bits).getD i false =
      if i < bits.length then bits.getD i false
      else copies && bits.getD (bits.length - 1) false := by
  obtain ⟨top, htop⟩ : ∃ top, bits.getLast? = some top :=
    ⟨_, List.getLast?_eq_some_getLast (List.length_pos_iff.mp pos)⟩
  have hlast : bits.getD (bits.length - 1) false = top := by
    rw [List.getD_eq_getElem?_getD, ← List.getLast?_eq_getElem?, htop, Option.getD_some]
  rw [hlast]
  by_cases hin : i < bits.length
  · cases copies <;> simp [widened, zeroExtend, dupExtend, htop, List.getElem?_append_left hin, hin]
  · have hout : i - bits.length < w - bits.length := by omega
    cases copies with
    | false =>
      simp [widened, zeroExtend, List.getElem?_append_right (Nat.le_of_not_lt hin), hin, hout]
      rfl
    | true =>
      simp [widened, dupExtend, htop, List.getElem?_append_right (Nat.le_of_not_lt hin), hin, hout]

theorem eval_extension {env : Valuation} {τ : Hole → Bool} {bits : List Bool}
    (h : eval (.settled env τ) e = .ok (.word bits)) :
    eval (.settled env τ) (extension t w e) =
      .ok (.word (widened w (τ (extensionSelector t)) bits)) := by
  rw [extension, eval_settled_choose rfl, eval_node_of_args (.cons h .nil),
    eval_node_of_args (.cons h .nil), widened]
  cases τ (extensionSelector t) <;> rfl

/-- Words of the full width are not changed by an extension, whatever its selector. -/
theorem eval_extension_of_length {env : Valuation} {τ : Hole → Bool} {bits : List Bool}
    (h : eval (.settled env τ) e = .ok (.word bits)) (hlen : bits.length = w) :
    eval (.settled env τ) (extension t w e) = .ok (.word bits) := by
  rw [eval_extension h, widened_of_length hlen]

/-- `y` is `x` extended between two tags. -/
def IsExtension (w lo hi : Nat) (x y : Expr) : Prop :=
  ∃ t, lo ≤ t ∧ t + 4 ≤ hi ∧ y = extension t w x

theorem IsExtension.mono (h : IsExtension w lo hi x y) {lo' hi' : Nat} (hlo : lo' ≤ lo)
    (hhi : hi ≤ hi') : IsExtension w lo' hi' x y := by
  obtain ⟨t, ht, ht', rfl⟩ := h
  exact ⟨t, by omega, by omega, rfl⟩

/-- The bits of several words at one position. -/
def IsPosition (wide : List Expr) (i : Nat) (row : List Expr) : Prop :=
  List.Forall₂ (fun x y => Cut x i i y) wide row

/-- The inputs extended, cut into positions and laid out between two tags. -/
structure Positioned (es : List Expr) (w lo : Nat) (c : ArrangementChoice) (wide : List Expr)
    (rs ps : List (List Expr)) (hi : Nat) : Prop where
  reorders : c.Reorders
  selectors : ∀ s ∈ c.selectors, lo ≤ s.tag ∧ s.tag < hi
  extensions : List.Forall₂ (IsExtension w lo hi) es wide
  rows : List.Forall₂ (IsPosition wide) (List.range w) rs
  laid : ArrangementChoice.Laid c Arrangement.physical rs ps
  sketched : Sketched es [] [] lo hi ps.flatten

theorem positions_rows (rs : List (List Expr)) : positions (.list (Nest.rows rs)) = rs := by
  simp [positions, Nest.rows, positionWords, Function.comp_def]

theorem isWord_of_extensions (h : List.Forall₂ (IsExtension w lo hi) es wide) :
    ∀ y ∈ wide, y.shape = .word w := by
  intro y hy
  obtain ⟨x, -, t, -, -, rfl⟩ := exists_of_forall₂_right h hy
  rfl

/-- The extended inputs have the values of the inputs if those have the full width. -/
theorem eval_extensions {env : Valuation} {τ : Hole → Bool} {words : List (List Bool)}
    (h : List.Forall₂ (IsExtension w lo hi) es wide)
    (hes : List.Forall₂ (fun x b => eval (.settled env τ) x = .ok (.word b) ∧ b.length = w) es
      words) :
    List.Forall₂ (fun y b => eval (.settled env τ) y = .ok (.word b) ∧ b.length = w) wide
      words := by
  refine (ArrangementChoice.forall₂_comp h.flip hes).imp ?_
  rintro y b ⟨x, ⟨t, -, -, rfl⟩, hx, hlen⟩
  exact ⟨eval_extension_of_length hx hlen, hlen⟩

/-- The words are extended one after the other. -/
theorem mapM_extended (h : es.mapM (extended w) next = .ok (wide, last)) :
    next ≤ last ∧ List.Forall₂ (IsExtension w next last) es wide := by
  obtain ⟨hle, hall⟩ := of_mapM h fun x _ a y b hy => by
    rw [extended_eq] at hy
    cases hy
    omega
  refine ⟨hle, hall.imp ?_⟩
  rintro x y ⟨a, b, ha, hb, hy⟩
  rw [extended_eq] at hy
  cases hy
  exact ⟨a, ha, hb, rfl⟩

theorem sketched_extensions (hes : ∀ x ∈ es, Fits w x) (le : lo ≤ hi)
    (h : List.Forall₂ (IsExtension w lo hi) es wide) : Sketched es [] [] lo hi wide where
  le := le
  issued := by simp
  grown y hy := by
    obtain ⟨x, hx, t, hlo, hhi, rfl⟩ := exists_of_forall₂_right h hy
    refine (grown_extension (hes x hx)).mono (by simpa using hx) (fun _ => False.elim) ?_
    rintro k rfl
    exact ⟨by simp only [extensionSelector]; omega, by simp only [extensionSelector]; omega, by simp⟩

/-- The bits of all words at each position. -/
theorem mapM_positionBits (hwide : ∀ y ∈ wide, y.shape = .word w) {nests : List Nest}
    (h : (List.range w).mapM (positionBits wide) next = .ok (nests, last)) :
    next ≤ last ∧ ∃ rs, nests = Nest.rows rs ∧ List.Forall₂ (IsPosition wide) (List.range w) rs := by
  have hposition : ∀ i ∈ List.range w, ∀ a n b, positionBits wide i a = .ok (n, b) →
      a ≤ b ∧ ∃ row : List Expr, n = .list (row.map .leaf) ∧ IsPosition wide i row := by
    intro i hi a n b hn
    obtain ⟨row, mid, hrow, hn⟩ := of_bind hn
    cases hn
    obtain ⟨hle, hall⟩ := of_mapM hrow fun x hx a y b hy =>
      (of_bit (hwide x hx) (List.mem_range.mp hi) hy).1
    refine ⟨hle, row, rfl, forall₂_of_mem hall ?_⟩
    rintro x hx y ⟨a, b, -, -, hy⟩
    exact (of_bit (hwide x hx) (List.mem_range.mp hi) hy).2
  obtain ⟨hle, hall⟩ := of_mapM h fun i hi a n b hn => (hposition i hi a n b hn).1
  refine ⟨hle, ?_⟩
  have hrows := forall₂_of_mem hall fun i hi n ⟨a, b, _, _, hn⟩ => (hposition i hi a n b hn).2
  exact exists_map_of_forall₂ hrows

theorem rectangular_of_positions
    (h : List.Forall₂ (IsPosition wide) (List.range w) rs) :
    ArrangementChoice.Rectangular wide.length 1 rs := by
  intro row hrow
  obtain ⟨i, -, hi⟩ := exists_of_forall₂_right h hrow
  refine ⟨hi.length_eq.symm, fun y hy => ?_⟩
  obtain ⟨x, -, hx⟩ := exists_of_forall₂_right hi hy
  exact hx.shape_bit

theorem grown_positions (h : List.Forall₂ (IsPosition wide) (List.range w) rs) :
    ∀ y ∈ rs.flatten, GrownFrom wide y := by
  intro y hy
  obtain ⟨row, hrow, hyrow⟩ := List.mem_flatten.mp hy
  obtain ⟨i, -, hi⟩ := exists_of_forall₂_right h hrow
  obtain ⟨x, hx, hcut⟩ := exists_of_forall₂_right hi hyrow
  exact hcut.grown.mono (by simpa using hx) (fun _ h => h) (fun _ h => h)

theorem Positioned.length {mid : Nat} (h : Positioned es w lo c wide rs ps mid) :
    ps.length = w := by
  rw [h.laid.length, ← h.rows.length_eq, List.length_range]

theorem Positioned.rectangular {mid : Nat} (h : Positioned es w lo c wide rs ps mid) :
    ArrangementChoice.Rectangular es.length 1 ps := by
  rw [h.extensions.length_eq]
  exact h.laid.rectangular (rectangular_of_positions h.rows)

/-- What a bitwise sketch does after its tables are placed. -/
def gather (c : ArrangementChoice) (outs : List Expr) : Build Refusal Expr := do
  let back ← c.toLogical (outs.map fun e => .list [.leaf e])
  Build.concatBits (positions back).flatten

/-- The first part of a bitwise sketch always returns, and only then the tables are placed. -/
theorem bitwiseOf_eq (p : Platform) (hes : ∀ x ∈ es, Fits w x) (next : Nat) :
    ∃ wide c rs ps mid, Positioned es w next c wide rs ps mid ∧ ∀ given, bitwiseOf p es w given next =
      (tables p given ps >>= fun r => gather c r.1 >>= fun out =>
        pure (out, r.2.getD ⟨es.length, []⟩)) mid := by
  obtain ⟨wide, t₁, hwide⟩ : ∃ wide t, es.mapM (extended w) next = .ok (wide, t) :=
    succeeds_mapM (fun x _ t => ⟨_, _, extended_eq w x t⟩) next
  obtain ⟨hle₁, hext⟩ := mapM_extended hwide
  have hshape := isWord_of_extensions hext
  obtain ⟨nests, t₂, hnests⟩ :
      ∃ nests t, (List.range w).mapM (positionBits wide) t₁ = .ok (nests, t) :=
    succeeds_mapM (fun i _ => (succeeds_mapM fun x _ => succeeds_bit x i).bind
      fun _ _ _ _ => succeeds_pure _) t₁
  obtain ⟨hle₂, rs, rfl, hrows⟩ := mapM_positionBits hshape hnests
  obtain ⟨c, t₃, hchoice, -, -, hreorders, hle₃, hsel⟩ := ArrangementChoice.ofList_spec
    Arrangement.usual (by simp [Arrangement.usual]) Arrangement.reorders_usual t₂
  obtain ⟨ps, t₄, hphysical, hle₄, hlaid⟩ := ArrangementChoice.toPhysical_spec hreorders
    (rectangular_of_positions hrows) t₃
  refine ⟨wide, c, rs, ps, t₄, ⟨hreorders, fun s hs => ?_, ?_, hrows, hlaid, ?_⟩, fun given => ?_⟩
  · have := hsel s hs
    omega
  · exact hext.imp fun x y h => h.mono le_rfl (by omega)
  · have hfirst : Sketched es [] [] next t₃ rs.flatten := by
      refine (sketched_extensions hes hle₁ hext).step
        (.of_grown [] (hle₂.trans hle₃) (grown_positions hrows)) (by simp) (by simp)
        (by simp) (List.Subset.refl _) (by simp) (by simp)
    refine hfirst.select c.selectors (fun k hk => ⟨?_, ?_, by simp⟩) hle₄ hlaid.grown
    · have := hsel k hk
      omega
    · exact (hsel k hk).2
  · rw [bitwiseOf, bind_of_ok hwide, bind_of_ok hnests, bind_of_ok hchoice, bind_of_ok hphysical,
      positions_rows]
    simp only [gather, bind_assoc]

/-- The last part always returns as well. -/
theorem gather_spec (hc : c.Reorders) {outs : List Expr} (ne : outs ≠ [])
    (bits : ∀ o ∈ outs, o.shape = .word 1) (next : Nat) :
    ∃ out last, gather c outs next = .ok (out, last) ∧ next ≤ last ∧
      ∃ ls, ArrangementChoice.Laid c Arrangement.logical (outs.map ([·])) ls ∧
        ArrangementChoice.Rectangular 1 1 ls ∧ Join ls.flatten out := by
  have hrows : (outs.map fun e => Nest.list [.leaf e]) = Nest.rows (outs.map ([·])) := by
    simp [Nest.rows, Function.comp_def]
  have hrect : ArrangementChoice.Rectangular 1 1 (outs.map ([·])) := by
    intro row hrow
    obtain ⟨o, ho, rfl⟩ := List.mem_map.mp hrow
    simpa using bits o ho
  obtain ⟨ls, mid, hback, hle, hlaid⟩ := ArrangementChoice.toLogical_spec hc hrect next
  obtain ⟨out, last, hout⟩ := succeeds_concatBits (ε := Refusal) ls.flatten mid
  have hls := hlaid.rectangular hrect
  have hword : ∀ x ∈ ls.flatten, x.isWord := by
    intro x hx
    obtain ⟨row, hrow, hxrow⟩ := List.mem_flatten.mp hx
    rw [isWord_iff, (hls row hrow).2 x hxrow, width_of_shape ((hls row hrow).2 x hxrow)]
  have hne : ls.flatten ≠ [] := by
    obtain ⟨o, rest, rfl⟩ := List.exists_cons_of_ne_nil ne
    obtain ⟨y, hy, -⟩ := mem_preorderAll.mp (hlaid.uses o (by simp))
    exact List.ne_nil_of_mem hy
  obtain ⟨hle', hjoin⟩ := of_concatBits hword hne hout
  refine ⟨out, last, ?_, hle.trans hle', ls, hlaid, hls, hjoin⟩
  rw [gather, hrows, bind_of_ok hback, positions_rows, hout]

/-- A sketch of a bitwise function of words that fit the width. `wide` are the extended inputs. -/
structure BitwiseSpec (es : List Expr) (w : Nat) (given : Option LutProgram) (next : Nat)
    (out : Expr) (l : LutProgram) (wide : List Expr) (last : Nat) : Prop where
  extensions : List.Forall₂ (IsExtension w next last) es wide
  inputs_eq : l.inputs = es.length
  complete : l.Complete
  shape : out.shape = .word w
  sketched : Sketched es ((given.map LutProgram.table).getD []) l.table next last [out]
  uses_wide : ∀ x ∈ wide, x ∈ out.preorder
  wires : ∀ k ∈ l.table, .hole k ∈ out.preorder
  eval : ∀ (env : Valuation) (τ : Hole → Bool) (words : List (List Bool)),
    List.Forall₂ (fun x b => eval (.settled env τ) x = .ok (.word b) ∧ b.length = w) wide words →
      eval (.settled env τ) out = .ok (.word ((List.range w).map fun i =>
        l.read τ (words.map fun b => b.getD i false)))

theorem mem_extension (e : Expr) : e ∈ (extension t w e).preorder := by
  simp [extension, mem_preorder_self]

theorem BitwiseSpec.uses (h : BitwiseSpec es w given next out l wide last) :
    ∀ x ∈ es, x ∈ out.preorder := by
  intro x hx
  obtain ⟨y, hy, t, -, -, rfl⟩ := exists_of_forall₂_left h.extensions hx
  exact mem_preorder_trans (mem_extension x) (h.uses_wide _ hy)

/-- The bits of the result, position by position. -/
theorem eval_gather {mid : Nat} {outs : List Expr} (hpos : Positioned es w lo c wide rs ps mid)
    (row : List.Forall₂ (fun q o => Platform.LutOutput q l o) ps outs)
    (back : ArrangementChoice.Laid c Arrangement.logical (outs.map ([·])) ls)
    (join : Join ls.flatten out) (env : Valuation) (τ : Hole → Bool) (words : List (List Bool))
    (h : List.Forall₂ (fun x b => eval (.settled env τ) x = .ok (.word b) ∧ b.length = w) wide
      words) :
    eval (.settled env τ) out = .ok (.word ((List.range w).map fun i =>
      l.read τ (words.map fun b => b.getD i false))) := by
  have hshape := isWord_of_extensions hpos.extensions
  have hlut : List.Forall₂ (fun q o => ∃ y, o = [y] ∧ Platform.LutOutput q l y) ps
      (outs.map ([·])) := by
    rw [List.forall₂_map_right_iff]
    exact row.imp fun q y hq => ⟨y, rfl, hq⟩
  have hback := hpos.laid.forall₂_back (τ := τ) hpos.reorders back hlut
  have hselects : (Context.settled env τ).Selects c.selectors τ :=
    fun s hs => selectorBit_settled (hpos.reorders.ones s hs)
  have hvalues : List.Forall₂ (fun i o => ∃ y, o = [y] ∧ eval (.settled env τ) y =
      .ok (.word [l.read τ (words.map fun b => b.getD i false)])) (List.range w) ls := by
    have hall := ArrangementChoice.forall₂_comp hpos.rows hback
    refine forall₂_of_mem hall ?_
    rintro i hi o ⟨r, hr, q, z, hrq, ⟨y, rfl, hy⟩, hz⟩
    obtain ⟨y', rfl, hsame⟩ : ∃ y', o = [y'] ∧ SameValue c.selectors τ y y' := by
      cases hz with
      | cons hyz hnil =>
        cases hnil
        exact ⟨_, rfl, hyz⟩
    refine ⟨y', rfl, (hsame _ hselects).trans (hy.eval env τ _ ?_)⟩
    have hrow : List.Forall₂ (fun b x => eval (.settled env τ) x = .ok (.word [b.getD i false]))
        words q := by
      have hwords : List.Forall₂ (fun b x => ∃ z, (eval (.settled env τ) z = .ok (.word b) ∧
          b.length = w ∧ z.shape = .word w) ∧ Cut z i i x) words r := by
        refine ArrangementChoice.forall₂_comp (List.Forall₂.flip ?_) hr
        exact forall₂_of_mem h fun z hz b hb => ⟨hb.1, hb.2, hshape z hz⟩
      refine (ArrangementChoice.forall₂_comp hwords hrq).imp ?_
      rintro b x ⟨x', ⟨z, ⟨hz, hlen, hzs⟩, hcut⟩, hx⟩
      have hib : i < b.length := hlen ▸ List.mem_range.mp hi
      rw [hx _ hselects, hcut.eval_getD hz (hlen.trans (width_of_shape hzs).symm) hib]
    rw [List.forall₂_map_right_iff]
    exact hrow.flip
  obtain ⟨ys, rfl, hys⟩ := exists_map_of_forall₂ (hvalues.imp fun i o h => h)
  have hflat : (ys.map ([·])).flatten = ys := by
    rw [← List.flatMap_def, List.flatMap_singleton']
  rw [hflat] at join
  exact join.eval_bits (List.forall₂_map_right_iff.mpr hys.flip)

theorem bitwiseOf_spec (hw : 0 < w) (hes : ∀ x ∈ es, Fits w x) (hgiven : ∀ g ∈ given, g.Complete)
    (h : bitwiseOf p es w given next = .ok ((out, l), last)) :
    ∃ wide, BitwiseSpec es w given next out l wide last := by
  obtain ⟨wide, c, rs, ps, mid, hpos, hrun⟩ := bitwiseOf_eq p hes next
  rw [hrun] at h
  obtain ⟨⟨outs, program⟩, t, htables, h⟩ := of_bind h
  obtain ⟨out', t', hgather, h⟩ := of_bind h
  cases h
  have hlen := hpos.length
  have hps : ps ≠ [] := List.ne_nil_of_length_pos (hlen ▸ hw)
  rw [Row.tables_eq_placeShared] at htables
  obtain ⟨l, rfl, -, hrow⟩ := Row.placeShared_spec hps hgiven htables
  have houts : outs ≠ [] := List.ne_nil_of_length_pos (by rw [hrow.length, hlen]; exact hw)
  obtain ⟨out₁, last₁, hgather₁, hle, ls, hback, hls, hjoin⟩ :=
    gather_spec hpos.reorders houts hrow.shape t
  obtain ⟨rfl, rfl⟩ : out₁ = out ∧ last₁ = last := by
    rw [hgather₁] at hgather
    cases hgather
    exact ⟨rfl, rfl⟩
  have hmid := hpos.sketched.le
  have hrowle := hrow.sketched.le
  have hsketched : Sketched es ((given.map LutProgram.table).getD []) l.table next t outs :=
    hpos.sketched.step hrow.sketched (by simp) (by simp)
      (fun k => by simp [LutRow.mem_shared hps]) (List.Subset.refl _) (by simp) (by simp)
  have huses : ∀ o ∈ outs, o ∈ out₁.preorder := fun o ho =>
    mem_preorder_of_mem_preorderAll (hback.uses o (by simpa using ho)) hjoin.uses
  refine ⟨wide, ?_, ?_, hrow.complete l (by simp; omega), ?_, ?_, ?_, ?_, fun env τ words h =>
    eval_gather hpos hrow.shared hback hjoin env τ words h⟩
  · exact hpos.extensions.imp fun x y h => h.mono le_rfl (by omega)
  · obtain ⟨q, hq, hinputs⟩ := exists_of_forall₂_right hrow.inputs_eq
      (List.mem_replicate.mpr ⟨by omega, rfl⟩)
    show l.inputs = _
    rw [hinputs, (hpos.rectangular q hq).1]
  · rw [hjoin.shape, hls.sum_width, hback.length, List.length_map, hrow.length, hlen]
    simp
  · refine hsketched.select c.selectors (fun k hk => ?_) hle fun z hz => ?_
    · obtain ⟨hge, hlt⟩ := hpos.selectors k hk
      refine ⟨hge, by omega, fun hmem => ?_⟩
      rcases hrow.sketched.issued k ((LutRow.mem_shared hps).mpr hmem) with hk | ⟨hk, -⟩
      · exact hk
      · omega
    · rw [List.mem_singleton] at hz
      subst hz
      refine hjoin.grown.trans (fun y hy => ?_) (fun _ h => h) (fun _ => False.elim)
      exact (hback.grown y hy).mono (by simp) (fun _ h => h) (fun _ h => h)
  · intro x hx
    obtain ⟨r, hr, hposition⟩ := exists_of_forall₂_left hpos.rows (List.mem_range.mpr hw)
    obtain ⟨y, hy, hcut⟩ := exists_of_forall₂_left hposition hx
    have hread : ∀ z ∈ ps.flatten, z ∈ out₁.preorder := fun z hz =>
      mem_preorder_of_mem_preorderAll (hrow.uses z hz) huses
    exact mem_preorder_trans hcut.uses
      (mem_preorder_of_mem_preorderAll (hpos.laid.uses y (List.mem_flatten.mpr ⟨r, hr, hy⟩)) hread)
  · intro k hk
    exact mem_preorder_of_mem_preorderAll (hrow.wires k ((LutRow.mem_shared hps).mpr hk)) huses

/-- A program that is handed in is the one that is used. -/
theorem bitwiseOf_kept {g : LutProgram} (hes : ∀ x ∈ es, Fits w x)
    (h : bitwiseOf p es w (some g) next = .ok ((out, l), last)) : l = g := by
  obtain ⟨wide, c, rs, ps, mid, hpos, hrun⟩ := bitwiseOf_eq p hes next
  rw [hrun] at h
  obtain ⟨⟨outs, program⟩, t, htables, h⟩ := of_bind h
  obtain ⟨out', t', hgather, h⟩ := of_bind h
  cases h
  rw [Row.tables_eq_placeShared] at htables
  rw [Row.placeShared_kept htables]
  rfl

/-- As many words that fit the width can be sketched with a new program, or with any for as many. -/
theorem bitwiseOf_reusable (hw : 0 < w) (hes : ∀ x ∈ es, Fits w x) (hes' : ∀ x ∈ es', Fits w x)
    (hlen : es'.length = es.length) (h : bitwiseOf p es w given next = .ok ((out, l), last))
    (given' : Option LutProgram) (hgiven' : ∀ g ∈ given', g.Complete)
    (sized : ∀ g ∈ given', g.inputs = es.length) (next' : Nat) :
    ∃ out' l' last', bitwiseOf p es' w given' next' = .ok ((out', l'), last') ∧
      ∀ g ∈ given', l' = g := by
  obtain ⟨wide, c, rs, ps, mid, hpos, hrun⟩ := bitwiseOf_eq p hes next
  obtain ⟨wide', c', rs', ps', mid', hpos', hrun'⟩ := bitwiseOf_eq p hes' next'
  rw [hrun] at h
  obtain ⟨⟨outs, program⟩, t, htables, -⟩ := of_bind h
  rw [Row.tables_eq_placeShared] at htables
  obtain ⟨q, qs, rfl⟩ :=
    List.exists_cons_of_ne_nil (List.ne_nil_of_length_pos (hpos.length ▸ hw) : ps ≠ [])
  obtain ⟨⟨first, l₀⟩, t₀, hfirst, -⟩ := of_bind htables
  have hps' : ps' ≠ [] := List.ne_nil_of_length_pos (hpos'.length ▸ hw)
  have hq : q.length = es.length := (hpos.rectangular q (by simp)).1
  obtain ⟨size, -, hfit, hone, -⟩ := Platform.lut_eq_ok.mp hfirst
  rw [hq, ← hlen] at hfit hone
  obtain ⟨outs', program', t', htables'⟩ :=
    Row.exists_placeShared hfit hone hpos'.rectangular given' (by rwa [hlen]) mid'
  obtain ⟨l', rfl, hkept, hrow'⟩ := Row.placeShared_spec hps' hgiven' htables'
  have houts : outs' ≠ [] := List.ne_nil_of_length_pos (by rw [hrow'.length, hpos'.length]; exact hw)
  obtain ⟨out', last', hgather', -⟩ := gather_spec hpos'.reorders houts hrow'.shape t'
  refine ⟨out', l', last', ?_, hkept⟩
  rw [hrun', Row.tables_eq_placeShared, bind_of_ok htables', bind_of_ok hgather']
  rfl

end Template
end CircuitSketch
