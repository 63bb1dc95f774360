import CircuitSketch.Proofs.Bits.Moving
import CircuitSketch.Proofs.Interface.Mux
import CircuitSketch.Proofs.Reduction.Kept
import CircuitSketch.Template.Shift

/-!
# One stage of a shift

A stage chooses the bit that moves to each position, from either side or from beyond the edge, and a
multiplexer takes it if the stage is selected. The choice of the fill is the one that starts with a
constant; all others choose the direction.
-/
namespace CircuitSketch

open CircuitSketch.Expr Build

/-- Whether an expression is a constant. -/
def Expr.isConst : Expr → Bool
  | .node _ (.const _ _) _ _ => true
  | _ => false

namespace Template

/-- Whether a fill can be the sign, or can be zero. -/
def Fill.admits : Fill → Bool → Bool
  | .either, _ => true
  | .zero, signed => !signed
  | .sign, signed => signed

/-- The choices of a shift are settled for one direction, and those of the fill for the sign or for
zero. -/
def Steered (fill : Fill) (signed down : Bool) (τ : Hole → Bool) (e : Expr) : Prop :=
  ∀ t w a b s, .choose t w a b s ∈ e.preorder →
    τ s = if fill = .either ∧ a.isConst then signed else down

variable {fill : Fill} {signed down edge : Bool} {τ : Hole → Bool} {env : Valuation}
  {zero sign a b : Expr} {next last : Nat} {out : Expr}

theorem Steered.mono {e : Expr} (h : Steered fill signed down τ out) (sub : e ∈ out.preorder) :
    Steered fill signed down τ e :=
  fun t w a b s hs => h t w a b s (mem_preorder_trans hs sub)

theorem Steered.of_mem_preorderAll {es : List Expr} {e : Expr}
    (h : ∀ o ∈ es, Steered fill signed down τ o) (he : e ∈ preorderAll es) :
    Steered fill signed down τ e := by
  obtain ⟨o, ho, heo⟩ := mem_preorderAll.mp he
  exact (h o ho).mono heo

/-- A bit that is made from others, with nothing to program. -/
structure MadeBit (xs : List Expr) (next : Nat) (out : Expr) (last : Nat) : Prop where
  shape : out.shape = .word 1
  sketched : Sketched xs [] [] next last [out]

theorem madeBit_self {xs : List Expr} (h : out.shape = .word 1) (mem : out ∈ xs) :
    MadeBit xs next out next :=
  ⟨h, .refl le_rfl (by simpa using mem)⟩

theorem MadeBit.mono {xs ys : List Expr} (h : MadeBit xs next out last) (sub : xs ⊆ ys) :
    MadeBit ys next out last :=
  ⟨h.shape, h.sketched.weaken sub (List.Subset.refl _) (List.Subset.refl _) le_rfl le_rfl⟩

/-- A bit made from bits that have been made. -/
theorem MadeBit.trans {xs ys : List Expr} {f : Expr} {mid : Nat} (h : MadeBit xs next f mid)
    (hout : MadeBit ys mid out last) (sub : ys ⊆ f :: xs) : MadeBit xs next out last :=
  ⟨hout.shape, h.sketched.step hout.sketched (List.Subset.refl _) (by simp) (by simp)
    (List.Subset.refl _) (fun y hy => by simpa [or_comm] using sub hy) (by simp)⟩

/-- A choice settled by the hole with tag `t`. -/
def steer (t : Nat) (a b : Expr) : Expr := .choose (t + 1) 1 a b ⟨t, 1, none⟩

theorem choose_eq {ε : Type} (ha : a.shape = .word 1) :
    (Build.choose a b : Build ε Expr) next = .ok (steer next a b, next + 2) := by
  rw [show (Build.choose a b : Build ε Expr) next =
    .ok (.choose (next + 1) a.width a b ⟨next, 1, none⟩, next + 2) from rfl, width_of_shape ha, steer]

theorem madeBit_steer (ha : a.shape = .word 1) (hb : b.shape = .word 1) :
    MadeBit [a, b] next (steer next a b) (next + 2) where
  shape := rfl
  sketched := by
    refine ⟨by omega, by simp, List.forall_mem_singleton.mpr ?_⟩
    have hchosen : Chosen [] [] next (next + 2) ⟨next, 1, none⟩ := ⟨le_rfl, by simp, by simp⟩
    exact .choice ha hb rfl hchosen (.operand (by simp)) (.operand (by simp))

/-- The bits that a steered choice is between. -/
theorem eval_steer {t : Nat} {x y : Bool} (h : Steered fill signed down τ (steer t a b))
    (ha : Expr.eval (.settled env τ) a = .ok (.word [x]))
    (hb : Expr.eval (.settled env τ) b = .ok (.word [y])) :
    Expr.eval (.settled env τ) (steer t a b) = .ok (.word
      [if (if fill = .either ∧ a.isConst then signed else down) then y else x]) := by
  have hs := h _ _ _ _ _ (mem_preorder_self _)
  rw [steer, eval_settled_choose rfl, hs, ha, hb]
  exact (apply_ite (fun z => Except.ok (Value.word [z])) _ y x).symm

/-- A bit that moves in from beyond the edge: zero, or the sign if that is asked for. -/
structure FillSpec (fill : Fill) (zero sign : Expr) (next : Nat) (out : Expr) (last : Nat) :
    Prop where
  made : MadeBit [zero, sign] next out last
  choice : fill = .either → out.isConst = false
  eval : ∀ (env : Valuation) (τ : Hole → Bool) (signed down edge : Bool), fill.admits signed →
    Steered fill signed down τ out → eval (.settled env τ) zero = .ok (.word [false]) →
      eval (.settled env τ) sign = .ok (.word [edge]) →
        eval (.settled env τ) out = .ok (.word [signed && edge])

theorem fillBit_spec (hconst : zero.isConst) (hzero : zero.shape = .word 1)
    (hsign : sign.shape = .word 1) (h : fillBit fill zero sign next = .ok (out, last)) :
    FillSpec fill zero sign next out last := by
  cases fill with
  | either =>
    rw [fillBit, choose_eq hzero] at h
    cases h
    refine ⟨madeBit_steer hzero hsign, fun _ => rfl, fun env τ signed down edge _ hsteer hz hs => ?_⟩
    rw [eval_steer hsteer hz hs, if_pos (And.intro rfl hconst)]
    cases signed <;> rfl
  | zero =>
    cases h
    refine ⟨madeBit_self hzero (by simp), by simp, fun env τ signed down edge hsigned _ hz _ => ?_⟩
    have hfalse : signed = false := by simpa [Fill.admits] using hsigned
    rw [hz, hfalse, Bool.false_and]
  | sign =>
    cases h
    refine ⟨madeBit_self hsign (by simp), by simp, fun env τ signed down edge hsigned _ _ hs => ?_⟩
    have htrue : signed = true := hsigned
    rw [hs, htrue, Bool.true_and]

theorem succeeds_fillBit (fill : Fill) (zero sign : Expr) : (fillBit fill zero sign).Succeeds := by
  cases fill with
  | either => exact succeeds_choose zero sign
  | zero => exact succeeds_pure zero
  | sign => exact succeeds_pure sign

/-- A bit from either of two sides: the one to move up, the other to move down. -/
structure SideSpec (fill : Fill) (up low : Expr) (next : Nat) (out : Expr) (last : Nat) :
    Prop where
  made : MadeBit [up, low] next out last
  uses : ∀ x ∈ [up, low], x ∈ out.preorder
  eval : ∀ (env : Valuation) (τ : Hole → Bool) (signed down x y : Bool),
    (fill = .either → up.isConst = false) → Steered fill signed down τ out →
      eval (.settled env τ) up = .ok (.word [x]) → eval (.settled env τ) low = .ok (.word [y]) →
        eval (.settled env τ) out = .ok (.word [if down then y else x])

/-- The direction matters only between different expressions. -/
theorem side_spec {up low : Expr} (hup : up.shape = .word 1) (hlow : low.shape = .word 1)
    (h : (if up = low then pure up else Build.choose up low : Build Refusal Expr) next =
      .ok (out, last)) : SideSpec fill up low next out last := by
  split at h
  · next hsame =>
    cases h
    subst hsame
    refine ⟨madeBit_self hup (by simp), by simp [mem_preorder_self],
      fun env τ signed down x y _ _ hx hy => ?_⟩
    obtain rfl : x = y := by simpa [hx] using hy
    rw [hx, ite_self]
  · rw [choose_eq hup] at h
    cases h
    refine ⟨madeBit_steer hup hlow, by simp [steer, mem_preorder_self],
      fun env τ signed down x y hconst hsteer hx hy => ?_⟩
    rw [eval_steer hsteer hx hy, if_neg (c := fill = .either ∧ up.isConst)]
    rintro ⟨heither, hup⟩
    simp [hconst heither] at hup

theorem succeeds_side (up low other : Expr) :
    (if up = low then pure other else Build.choose up low : Build Refusal Expr).Succeeds := by
  split
  · exact succeeds_pure other
  · exact succeeds_choose up low

variable {current : List Expr} {row : List Bool} {distance position : Nat}

/-- The bits of a row at work: as many as the width, and none of them a constant if there are
several. -/
structure Working (width : Nat) (current : List Expr) : Prop where
  length : current.length = width
  shape : ∀ x ∈ current, x.shape = .word 1
  proper : 1 < width → ∀ x ∈ current, x.isConst = false

/-- The bit that moves to a position of a row. -/
structure ShiftedSpec (fill : Fill) (zero sign : Expr) (current : List Expr)
    (distance position next : Nat) (out : Expr) (last : Nat) : Prop where
  made : MadeBit (zero :: sign :: current) next out last
  eval : ∀ (env : Valuation) (τ : Hole → Bool) (signed down edge : Bool) (row : List Bool),
    fill.admits signed → Steered fill signed down τ out →
      eval (.settled env τ) zero = .ok (.word [false]) →
        eval (.settled env τ) sign = .ok (.word [edge]) →
          List.Forall₂ (fun x b => eval (.settled env τ) x = .ok (.word [b])) current row →
            eval (.settled env τ) out =
              .ok (.word [Word.movedBit down (signed && edge) row distance position])

theorem eval_getElem? {c : Context Bool} {i : Nat} {x : Expr} {b : Bool}
    (h : List.Forall₂ (fun x b => Expr.eval c x = .ok (.word [b])) current row)
    (hx : current[i]? = some x) : Expr.eval c x = .ok (.word [row.getD i b]) := by
  obtain ⟨hi, rfl⟩ := List.getElem?_eq_some_iff.mp hx
  have hrow : i < row.length := h.length_eq ▸ hi
  rw [List.getD_eq_getElem?_getD, List.getElem?_eq_getElem hrow, Option.getD_some]
  exact h.get hi hrow

theorem getD_of_getElem?_eq_none {c : Context Bool} {i : Nat} {b : Bool}
    (h : List.Forall₂ (fun x b => Expr.eval c x = .ok (.word [b])) current row)
    (hx : current[i]? = none) : row.getD i b = b :=
  Word.getD_of_le (h.length_eq ▸ List.getElem?_eq_none_iff.mp hx)

theorem shiftedBit_spec {width : Nat} (hconst : zero.isConst) (hzero : zero.shape = .word 1)
    (hsign : sign.shape = .word 1) (hcurrent : Working width current) (hdistance : 0 < distance)
    (hposition : position < width)
    (h : shiftedBit fill zero sign current distance position next = .ok (out, last)) :
    ShiftedSpec fill zero sign current distance position next out last := by
  have hedge : [zero, sign] ⊆ zero :: sign :: current := by simp
  obtain ⟨left, hleft⟩ : ∃ left, left =
    if distance ≤ position then current[position - distance]? else none := ⟨_, rfl⟩
  obtain ⟨right, hright⟩ : ∃ right, right = current[position + distance]? := ⟨_, rfl⟩
  rw [shiftedBit, ← hleft, ← hright] at h
  cases left with
  | some l =>
    obtain ⟨hle, hl⟩ : distance ≤ position ∧ current[position - distance]? = some l := by
      split at hleft
      · next hle => exact ⟨hle, hleft.symm⟩
      · cases hleft
    have hmem := List.mem_of_getElem? hl
    have hlshape := hcurrent.shape l hmem
    -- a bit on that side makes two positions, so no bit of the row is a constant
    have hproper : l.isConst = false := hcurrent.proper (by omega) l hmem
    cases right with
    | some r =>
      have hrmem := List.mem_of_getElem? hright.symm
      have hside : SideSpec fill l r next out last := side_spec hlshape (hcurrent.shape r hrmem) h
      refine ⟨hside.made.mono (by simp [hmem, hrmem]),
        fun env τ signed down edge row _ hsteer _ _ hrow => ?_⟩
      rw [Word.movedBit, if_pos hle]
      exact hside.eval env τ signed down _ _ (fun _ => hproper) hsteer (eval_getElem? hrow hl)
        (eval_getElem? hrow hright.symm)
    | none =>
      obtain ⟨f, mid, hf, h⟩ := of_bind h
      have hfill := fillBit_spec hconst hzero hsign hf
      have hside : SideSpec fill l f mid out last := side_spec hlshape hfill.made.shape h
      refine ⟨(hfill.made.mono hedge).trans hside.made (by simp [hmem]),
        fun env τ signed down edge row hadmits hsteer hz hs hrow => ?_⟩
      rw [Word.movedBit, if_pos hle, getD_of_getElem?_eq_none hrow hright.symm]
      exact hside.eval env τ signed down _ _ (fun _ => hproper) hsteer (eval_getElem? hrow hl)
        (hfill.eval env τ signed down edge hadmits (hsteer.mono (hside.uses f (by simp))) hz hs)
  | none =>
    -- beyond the edge on that side, whatever would be read there is the fill
    have hup : ∀ {c : Context Bool} {row : List Bool} (b : Bool),
        List.Forall₂ (fun x b => Expr.eval c x = .ok (.word [b])) current row →
          (if distance ≤ position then row.getD (position - distance) b else b) = b := by
      intro c row b hrow
      split at hleft
      · next hle => rw [if_pos hle, getD_of_getElem?_eq_none hrow hleft.symm]
      · next hle => rw [if_neg hle]
    cases right with
    | some r =>
      obtain ⟨f, mid, hf, h⟩ := of_bind h
      have hrmem := List.mem_of_getElem? hright.symm
      have hfill := fillBit_spec hconst hzero hsign hf
      have hswap : (if f = r then pure r else Build.choose f r : Build Refusal Expr) =
          if f = r then pure f else Build.choose f r := ite_congr rfl (fun hfr => by rw [hfr])
            fun _ => rfl
      rw [hswap] at h
      have hside : SideSpec fill f r mid out last :=
        side_spec hfill.made.shape (hcurrent.shape r hrmem) h
      refine ⟨(hfill.made.mono hedge).trans hside.made (by simp [hrmem]),
        fun env τ signed down edge row hadmits hsteer hz hs hrow => ?_⟩
      rw [Word.movedBit, hup _ hrow]
      exact hside.eval env τ signed down _ _ hfill.choice hsteer
        (hfill.eval env τ signed down edge hadmits (hsteer.mono (hside.uses f (by simp))) hz hs)
        (eval_getElem? hrow hright.symm)
    | none =>
      have hfill := fillBit_spec hconst hzero hsign h
      refine ⟨hfill.made.mono hedge, fun env τ signed down edge row hadmits hsteer hz hs hrow => ?_⟩
      rw [Word.movedBit, hup _ hrow, getD_of_getElem?_eq_none hrow hright.symm, ite_self]
      exact hfill.eval env τ signed down edge hadmits hsteer hz hs

theorem succeeds_shiftedBit (fill : Fill) (zero sign : Expr) (current : List Expr)
    (distance position : Nat) :
    (shiftedBit fill zero sign current distance position).Succeeds := by
  rw [shiftedBit]
  cases (if distance ≤ position then current[position - distance]? else none) with
  | some l =>
    cases current[position + distance]? with
    | some r => exact succeeds_side l r l
    | none => exact (succeeds_fillBit fill zero sign).bind fun f _ _ _ => succeeds_side l f l
  | none =>
    cases current[position + distance]? with
    | some r => exact (succeeds_fillBit fill zero sign).bind fun f _ _ _ => succeeds_side f r r
    | none => exact succeeds_fillBit fill zero sign

section Multiplex

variable {p : Platform} {select : Expr} {pairs : List (Expr × Expr)} {outs : List Expr}
  {given program : Option MuxProgram} {mid : Nat}

/-- The holes of a multiplexer's program, if there is one. -/
def muxHoles (program : Option MuxProgram) : List Hole := (program.map MuxProgram.holes).getD []

/-- The table of a multiplexer's program is complete. -/
def MuxComplete (program : Option MuxProgram) : Prop := ∀ m ∈ program, ∀ l ∈ m.lut, l.Complete

/-- A multiplexer has no table where it is fixed hardware. -/
def MuxNeeded (p : Platform) (program : Option MuxProgram) : Prop :=
  ∀ m ∈ program, p.mux = some .native → m.lut = none

/-- The table of a multiplexer chooses between two inputs. -/
def Multiplexes (τ : Hole → Bool) (program : Option MuxProgram) : Prop :=
  ∀ m ∈ program, ∀ l ∈ m.lut, ∀ x y z, l.read τ [x, y, z] = if z then y else x

/-- A row of multiplexers. -/
structure MuxBitsSpec (p : Platform) (select : Expr) (pairs : List (Expr × Expr))
    (given : Option MuxProgram) (next : Nat) (outs : List Expr) (program : Option MuxProgram)
    (last : Nat) : Prop where
  kept : ∀ g ∈ given, program = some g
  placed : pairs ≠ [] → program.isSome
  complete : MuxComplete program
  length : outs.length = pairs.length
  shape : ∀ o ∈ outs, o.shape = .word 1
  proper : ∀ o ∈ outs, o.isConst = false
  sketched : Sketched (select :: pairs.map Prod.fst ++ pairs.map Prod.snd) (muxHoles given)
    (muxHoles program) next last outs
  uses : ∀ q ∈ pairs, ∀ x ∈ [q.1, q.2, select], x ∈ preorderAll outs
  needed : MuxNeeded p given → MuxNeeded p program
  wires : pairs ≠ [] → MuxNeeded p given → ∀ k ∈ muxHoles program, .hole k ∈ preorderAll outs
  eval : ∀ (env : Valuation) (τ : Hole → Bool) (z : Bool) (xs ys : List Bool),
    Multiplexes τ program → eval (.settled env τ) select = .ok (.word [z]) →
      List.Forall₂ (fun x b => eval (.settled env τ) x = .ok (.word [b])) (pairs.map Prod.fst) xs →
        List.Forall₂ (fun x b => eval (.settled env τ) x = .ok (.word [b])) (pairs.map Prod.snd)
          ys →
          List.Forall₂ (fun o b => eval (.settled env τ) o = .ok (.word [b])) outs
            (if z then ys else xs)

theorem muxBitsSpec_nil (hgiven : MuxComplete given) :
    MuxBitsSpec p select [] given next [] given next where
  kept _ hg := hg
  placed h := absurd rfl h
  complete := hgiven
  length := rfl
  shape := by simp
  proper := by simp
  sketched := ⟨le_rfl, fun _ hk => .inl hk, by simp⟩
  uses := by simp
  needed h := h
  wires h := absurd rfl h
  eval env τ z xs ys _ _ hxs hys := by
    cases hxs
    cases hys
    cases z <;> exact .nil

/-- What a multiplexer places is not a constant. -/
theorem isConst_mux2 {m : MuxProgram} {here moved : Expr}
    (h : p.mux2 here moved select given next = .ok ((out, m), last)) : out.isConst = false := by
  obtain ⟨-, -, -, -, hplaced⟩ := Platform.mux2_eq_ok.mp h
  cases hplaced with
  | native style => rfl
  | new style fresh placed =>
    obtain ⟨size, t, -, -, -, -, rfl, -⟩ := Platform.lut_eq_ok.mp placed
    rfl
  | again style handed table placed =>
    obtain ⟨size, t, -, -, -, -, rfl, -⟩ := Platform.lut_eq_ok.mp placed
    rfl

theorem MuxBitsSpec.cons {m : MuxProgram} {here moved : Expr} (kept : ∀ g ∈ given, m = g)
    (native : MuxNeeded p given → MuxNeeded p (some m)) (proper : out.isConst = false)
    (head : Platform.MuxSpec p here moved select given next out m mid)
    (tail : MuxBitsSpec p select pairs (some m) mid outs program last) :
    MuxBitsSpec p select ((here, moved) :: pairs) given next (out :: outs) program last := by
  obtain rfl : program = some m := tail.kept m rfl
  refine ⟨fun g hg => by rw [kept g hg], fun _ => rfl, tail.complete, ?_, ?_, ?_, ?_, ?_, native,
    fun _ h k hk => ?_, fun env τ z xs ys hmux hz hxs hys => ?_⟩
  · rw [List.length_cons, List.length_cons, tail.length]
  · exact List.forall_mem_cons.mpr ⟨head.shape, tail.shape⟩
  · exact List.forall_mem_cons.mpr ⟨proper, tail.proper⟩
  · refine head.sketched.step tail.sketched (List.Subset.refl _) (by simp [muxHoles]) ?_ ?_ ?_ ?_
    · simp [muxHoles]
    · intro x hx
      simp only [List.mem_cons, List.not_mem_nil, or_false] at hx
      rcases hx with rfl | rfl | rfl <;> simp
    · intro x hx
      simp only [List.cons_append, List.mem_cons, List.mem_append, List.map_cons] at hx ⊢
      tauto
    · intro x hx
      simp only [List.mem_cons, List.mem_append] at hx ⊢
      tauto
  · refine List.forall_mem_cons.mpr ⟨fun x hx => ?_, fun q hq x hx => ?_⟩
    · have hx : x ∈ [here, moved, select] := hx
      exact mem_preorderAll.mpr ⟨out, by simp, head.uses x hx⟩
    · obtain ⟨o, ho, hxo⟩ := mem_preorderAll.mp (tail.uses q hq x hx)
      exact mem_preorderAll.mpr ⟨o, by simp [ho], hxo⟩
  · exact mem_preorderAll.mpr ⟨out, by simp, head.wires h k hk⟩
  · obtain ⟨x, restx, hx, hrestx, rfl⟩ := List.forall₂_cons_left_iff.mp hxs
    obtain ⟨y, resty, hy, hresty, rfl⟩ := List.forall₂_cons_left_iff.mp hys
    have hout := head.eval env τ x y z hx hy hz fun l hl => hmux m rfl l hl x y z
    have hrest := tail.eval env τ z restx resty hmux hz hrestx hresty
    cases z
    · exact .cons hout hrest
    · exact .cons hout hrest

theorem muxBits_spec (hgiven : MuxComplete given)
    (h : muxBits p select pairs given next = .ok ((outs, program), last)) :
    MuxBitsSpec p select pairs given next outs program last := by
  induction pairs generalizing given next outs with
  | nil =>
    cases h
    exact muxBitsSpec_nil hgiven
  | cons q pairs ih =>
    obtain ⟨here, moved⟩ := q
    obtain ⟨⟨out, m⟩, mid, hout, h⟩ := of_bind h
    obtain ⟨⟨rest, last⟩, stop, hrest, h⟩ := of_bind h
    cases h
    have head := Platform.mux2_spec hgiven hout
    refine .cons (fun g hg => ?_) (fun hneeded => ?_) (isConst_mux2 hout) head
      (ih (by simpa [MuxComplete] using head.complete) hrest)
    · rw [Option.mem_def] at hg
      exact Platform.mux2_kept (hg ▸ hout)
    · intro g hg style
      obtain rfl : m = g := Option.some.inj hg
      exact Platform.mux2_native hneeded hout style

theorem muxBits_kept {m : MuxProgram}
    (h : muxBits p select pairs (some m) next = .ok ((outs, program), last)) : program = some m := by
  induction pairs generalizing next outs with
  | nil =>
    cases h
    rfl
  | cons q pairs ih =>
    obtain ⟨⟨out, m'⟩, mid, hout, h⟩ := of_bind h
    obtain ⟨⟨rest, last⟩, stop, hrest, h⟩ := of_bind h
    cases h
    obtain rfl := Platform.mux2_kept hout
    exact ih hrest

/-- The program of a row of multiplexers is that of its first one. -/
theorem exists_mux2_of_muxBits (ne : pairs ≠ [])
    (h : muxBits p select pairs given next = .ok ((outs, program), last)) :
    ∃ m here moved out mid, program = some m ∧
      p.mux2 here moved select given next = .ok ((out, m), mid) := by
  cases pairs with
  | nil => exact absurd rfl ne
  | cons q pairs =>
    obtain ⟨here, moved⟩ := q
    obtain ⟨⟨out, m⟩, mid, hout, h⟩ := of_bind h
    obtain ⟨⟨rest, last⟩, stop, hrest, h⟩ := of_bind h
    cases h
    exact ⟨m, here, moved, out, mid, muxBits_kept hrest, hout⟩

/-- A row of multiplexers can be made with a new program, or with any of the right size. -/
theorem muxBits_reusable {m : MuxProgram} {here moved select' : Expr}
    (h : p.mux2 here moved select given next = .ok ((out, m), last))
    (hselect : select'.shape = .word 1)
    (bits : ∀ q ∈ pairs, q.1.shape = .word 1 ∧ q.2.shape = .word 1) (given' : Option MuxProgram)
    (sized : ∀ g ∈ given', Platform.MuxSized p g) (next' : Nat) :
    ∃ outs' program' last', muxBits p select' pairs given' next' = .ok ((outs', program'), last') ∧
      ∀ g ∈ program', Platform.MuxSized p g := by
  induction pairs generalizing given' next' with
  | nil => exact ⟨[], given', next', rfl, sized⟩
  | cons q pairs ih =>
    obtain ⟨a, b⟩ := q
    obtain ⟨ha, hb⟩ := bits (a, b) (by simp)
    obtain ⟨out', m', mid', hout', -⟩ :=
      Platform.mux2_reusable h (by simpa using ⟨ha, hb, hselect⟩) given' sized next'
    obtain ⟨outs', program', last', hrest, hsized⟩ := ih (fun q hq => bits q (by simp [hq]))
      (some m') (by simpa using Platform.mux2_sized hout') mid'
    refine ⟨out' :: outs', program', last', ?_, hsized⟩
    rw [muxBits, bind_of_ok hout']
    simp only
    rw [bind_of_ok hrest]
    rfl

end Multiplex

section Select

variable {p : Platform} {amount select : Expr} {width stage mid : Nat} {final : Bool}
  {given program : Option ReductionProgram}

/-- The holes of the reduction that saturates a shift, if there is one. -/
def saturateHoles (program : Option ReductionProgram) : List Hole :=
  (program.map ReductionProgram.holes).getD []

/-- A reduction saturates a shift only if several bits of the amount remain, and has pads only where
they do not fill its windows. -/
structure SaturateNeeded (p : Platform) (remaining : Nat) (program : Option ReductionProgram) :
    Prop where
  several : remaining = 1 → program = none
  levels : ∀ r ∈ program, LevelsNeeded p 1 remaining r.levels

/-- Every table of the reduction is the disjunction of its inputs, and its pads are zero. -/
def Saturates (τ : Hole → Bool) (program : Option ReductionProgram) : Prop :=
  ∀ s ∈ program, ∀ r ∈ s.levels, r.PooledBy τ or false

/-- What selects a stage. Only the last one needs a program. -/
structure SelectSpec (p : Platform) (amount : Expr) (width stage : Nat) (final : Bool)
    (given : Option ReductionProgram) (next : Nat) (select : Expr)
    (program : Option ReductionProgram) (last : Nat) : Prop where
  kept : final = false → program = given
  complete : ∀ s ∈ program, s.Complete
  shape : select.shape = .word 1
  sketched : Sketched [amount] (saturateHoles given) (if final then saturateHoles program else [])
    next last [select]
  needed : final → SaturateNeeded p (width - stage) given → SaturateNeeded p (width - stage) program
  wires : final → SaturateNeeded p (width - stage) given →
    ∀ k ∈ saturateHoles program, .hole k ∈ select.preorder
  eval : ∀ (env : Valuation) (τ : Hole → Bool) (ys : List Bool),
    (final → Saturates τ program) → eval (.settled env τ) amount = .ok (.word ys) →
      ys.length = width →
        eval (.settled env τ) select = .ok (.word [Word.stageSelected ys stage final])

theorem stageSelect_single {remaining : List Expr}
    (hrun : (List.range' stage (width - stage)).mapM (Build.bit amount : Nat → Build Refusal Expr)
      next = .ok (remaining, mid))
    (hone : remaining = [select]) :
    stageSelect p amount width stage true given next = .ok ((select, given), mid) := by
  subst hone
  rw [stageSelect, if_pos rfl, bind_of_ok hrun]
  rfl

theorem stageSelect_several {remaining : List Expr}
    (hrun : (List.range' stage (width - stage)).mapM (Build.bit amount : Nat → Build Refusal Expr)
      next = .ok (remaining, mid))
    (hmany : remaining.length ≠ 1) :
    stageSelect p amount width stage true given next =
      (Reduction.reduce p [remaining.map .expr] given true >>= fun r => pure (r.1, some r.2))
        mid := by
  rw [stageSelect, if_pos rfl, bind_of_ok hrun]
  split
  · exact absurd rfl hmany
  · rfl

/-- The bits of the amount that remain for the last stage. -/
structure Remaining (amount : Expr) (width stage : Nat) (remaining : List Expr) : Prop where
  length : remaining.length = width - stage
  bits : ∀ x ∈ remaining, x.shape = .word 1
  grown : ∀ x ∈ remaining, GrownFrom [amount] x
  eval : ∀ {c : Context Bool} {ys : List Bool}, eval c amount = .ok (.word ys) →
    ys.length = width → List.Forall₂ (fun x b => eval c x = .ok (.word [b])) remaining
      (ys.drop stage)

theorem of_remaining {remaining : List Expr} (hamount : amount.shape = .word width)
    (hstage : stage < width)
    (h : (List.range' stage (width - stage)).mapM (Build.bit amount : Nat → Build Refusal Expr)
      next = .ok (remaining, mid)) : next ≤ mid ∧ Remaining amount width stage remaining := by
  have hlt : ∀ i ∈ List.range' stage (width - stage), i < width := by
    intro i hi
    have := List.mem_range'_1.mp hi
    omega
  obtain ⟨hle, hcuts⟩ := of_mapM_bit hamount hlt h
  refine ⟨hle, by simpa using hcuts.length_eq.symm, fun x hx => ?_, fun x hx => ?_,
    fun {c ys} heval hlen => ?_⟩
  · obtain ⟨i, -, hcut⟩ := exists_of_forall₂_right hcuts hx
    exact hcut.shape_bit
  · obtain ⟨i, -, hcut⟩ := exists_of_forall₂_right hcuts hx
    exact hcut.grown
  · have hvalues := eval_cuts_range' hcuts heval (hlen.trans (width_of_shape hamount).symm)
      (by omega)
    rwa [List.take_of_length_le (by rw [List.length_drop]; omega)] at hvalues

theorem succeeds_remaining (amount : Expr) (width stage : Nat) :
    Succeeds ((List.range' stage (width - stage)).mapM
      (Build.bit amount : Nat → Build Refusal Expr)) :=
  succeeds_mapM fun i _ => succeeds_bit amount i

theorem Remaining.even {remaining : List Expr} (h : Remaining amount width stage remaining)
    (hstage : stage < width) : Row.Even (width - stage) [remaining] :=
  h.length ▸ Reduction.even_singleton (List.ne_nil_of_length_pos (by rw [h.length]; omega)) h.bits

theorem stageSelect_final_spec (hamount : amount.shape = .word width) (hstage : stage < width)
    (hgiven : ∀ g ∈ given, g.Complete)
    (h : stageSelect p amount width stage true given next = .ok ((select, program), last)) :
    SelectSpec p amount width stage true given next select program last := by
  obtain ⟨remaining, mid, hrun⟩ := succeeds_remaining amount width stage next
  obtain ⟨hle, hremaining⟩ := of_remaining hamount hstage hrun
  by_cases hone : remaining.length = 1
  · obtain ⟨bit, rfl⟩ := List.length_eq_one_iff.mp hone
    rw [stageSelect_single hrun rfl] at h
    cases h
    have hwidth : width - stage = 1 := hremaining.length.symm
    have hnone : SaturateNeeded p (width - stage) given → given = none := fun h => h.several hwidth
    refine ⟨nofun, hgiven, hremaining.bits _ (by simp), ⟨hle, fun _ hk => .inl hk, ?_⟩,
      fun _ h => h, fun _ h k hk => ?_, fun env τ ys _ hvalue hlen => ?_⟩
    · exact List.forall_mem_singleton.mpr ((hremaining.grown _ (by simp)).mono (fun _ hx => hx)
        (fun _ => False.elim) (fun _ => False.elim))
    · simp [saturateHoles, hnone h] at hk
    · have hbits := hremaining.eval hvalue hlen
      rw [Word.stageSelected, if_pos rfl]
      obtain ⟨b, rest, hb, hrest, hdrop⟩ := List.forall₂_cons_left_iff.mp hbits
      cases hrest
      rw [hb, hdrop]
      simp
  · rw [stageSelect_several hrun hone] at h
    obtain ⟨⟨bit, r⟩, t, hreduce, h⟩ := of_bind h
    cases h
    have hreduce : Reduction.reduce p ([remaining].map fun row => row.map .expr) given true mid =
        .ok ((bit, r), last) := hreduce
    obtain ⟨length, hspec⟩ := Reduction.reduce_spec hgiven hreduce
    have hlength : length = width - stage := by
      rw [← hremaining.length]
      exact (hspec.even.same remaining (by simp)).symm
    subst hlength
    have hsketched := hspec.sketched
    have hbits : Sketched [amount] (saturateHoles given) [] next mid remaining :=
      .of_grown _ hle hremaining.grown
    refine ⟨nofun, by simpa using hspec.complete, hspec.shape, ?_, fun _ h => ?_,
      fun _ h k hk => ?_, fun env τ ys hprogram hvalue hlen => ?_⟩
    · exact hbits.step hsketched (List.Subset.refl _) (by simp [saturateHoles])
        (by simp [saturateHoles]) (List.Subset.refl _) (by simp) (by simp)
    · refine ⟨fun hone' => absurd (hremaining.length.trans hone') hone, ?_⟩
      simpa using (hspec.needed_wires h.levels).1
    · exact (hspec.needed_wires h.levels).2 k hk
    · have hpooled := hspec.eval_pooled pools_or
        (Context.settles_settled _ _ hspec.complete.ones) (hprogram rfl r rfl)
        (.cons (hremaining.eval hvalue hlen) .nil)
      rw [hpooled, Word.stageSelected, if_pos rfl]
      simp

theorem stageSelect_spec (hamount : amount.shape = .word width) (hstage : stage < width)
    (hgiven : ∀ g ∈ given, g.Complete)
    (h : stageSelect p amount width stage final given next = .ok ((select, program), last)) :
    SelectSpec p amount width stage final given next select program last := by
  cases final with
  | true => exact stageSelect_final_spec hamount hstage hgiven h
  | false =>
    obtain ⟨bit, mid, hbit, h⟩ := of_bind h
    cases h
    obtain ⟨hle, hcut⟩ := of_bit hamount hstage hbit
    refine ⟨fun _ => rfl, hgiven, hcut.shape_bit, ?_, nofun, nofun,
      fun env τ ys _ hvalue hlen => ?_⟩
    · exact .of_grown _ hle (List.forall_mem_singleton.mpr hcut.grown)
    · exact hcut.eval_getD hvalue (hlen.trans (width_of_shape hamount).symm) (hlen ▸ hstage)

/-- A stage before the last is selected by one bit, and any program is handed on. -/
theorem stageSelect_early (p : Platform) (amount : Expr) (width stage : Nat)
    (given : Option ReductionProgram) (next : Nat) : ∃ select last,
      stageSelect p amount width stage false given next = .ok ((select, given), last) := by
  obtain ⟨bit, last, hbit⟩ := succeeds_bit (ε := Refusal) amount stage next
  refine ⟨bit, last, ?_⟩
  rw [stageSelect, if_neg Bool.false_ne_true, bind_of_ok hbit]
  rfl

/-- The last stage can be selected by an amount of the same width with a new program, or with the
same one. -/
theorem stageSelect_reusable {amount' : Expr} {given' : Option ReductionProgram}
    (hamount : amount.shape = .word width) (hamount' : amount'.shape = .word width)
    (hstage : stage < width) (hgiven : ∀ g ∈ given, g.Complete)
    (h : stageSelect p amount width stage true given next = .ok ((select, program), last))
    (hgiven' : given' = none ∧ given = none ∨ given' = program) (next' : Nat) :
    ∃ select' program' last', stageSelect p amount' width stage true given' next' =
      .ok ((select', program'), last') ∧ (given' = program → program' = program) := by
  obtain ⟨remaining, mid, hrun⟩ := succeeds_remaining amount width stage next
  obtain ⟨remaining', mid', hrun'⟩ := succeeds_remaining amount' width stage next'
  obtain ⟨-, hremaining⟩ := of_remaining hamount hstage hrun
  obtain ⟨-, hremaining'⟩ := of_remaining hamount' hstage hrun'
  have hsame : remaining'.length = remaining.length :=
    hremaining'.length.trans hremaining.length.symm
  by_cases hone : remaining.length = 1
  · obtain ⟨bit, hbit⟩ := List.length_eq_one_iff.mp (hsame.trans hone)
    exact ⟨bit, given', mid', stageSelect_single hrun' hbit, id⟩
  · rw [stageSelect_several hrun hone] at h
    obtain ⟨⟨bit, r⟩, t, hreduce, h⟩ := of_bind h
    cases h
    have same : ∀ g ∈ given', g = r := by
      rintro g rfl
      simpa using hgiven'
    obtain ⟨bit', r', last', hreduce', hkept⟩ := Reduction.reduce_reusable (hremaining'.even hstage)
      (show [remaining'].length = [remaining].length from rfl) (hremaining.even hstage) hgiven same
      hreduce mid'
    refine ⟨bit', some r', last', ?_, fun hg => congrArg some (hkept r hg)⟩
    rw [stageSelect_several hrun' (by omega)]
    exact bind_of_ok (f := fun r => pure (r.1, some r.2)) hreduce'

end Select

end Template
end CircuitSketch
