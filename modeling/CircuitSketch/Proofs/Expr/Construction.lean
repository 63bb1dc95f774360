import CircuitSketch.Proofs.Bits.Reading
import CircuitSketch.Proofs.Expr.WellFormed
import Mathlib.Data.List.Perm.Subperm

/-!
# Checked construction makes well-formed expressions

Every constructor that checks its arguments makes a well-formed expression out of well-formed
operands, whatever its other arguments are.
-/
namespace CircuitSketch

namespace Build

variable {ε α γ : Type} {P : α → Prop} {Q : γ → Prop}

/-- Whatever a computation makes has a property. -/
def Makes (b : Build ε α) (P : α → Prop) : Prop :=
  ∀ next a next', b next = .ok (a, next') → P a

theorem Makes.bind {b : Build ε α} {f : α → Build ε γ} (hb : b.Makes P)
    (hf : ∀ a, P a → (f a).Makes Q) : Makes (b >>= f) Q := by
  intro next c last h
  obtain ⟨⟨a, next'⟩, ha, hc⟩ := bind_eq_ok h
  exact hf a (hb next a next' ha) next' c last hc

theorem makes_lift {x : Except ε α} (h : ∀ a, x = .ok a → P a) :
    Makes (liftM x : Build ε α) P := by
  intro next a next' ha
  cases x with
  | error e => cases ha
  | ok b =>
    cases ha
    exact h _ rfl

theorem makes_pure {a : α} (h : P a) : Makes (pure a : Build ε α) P := by
  intro next b next' hb
  cases hb
  exact h

theorem makes_mapM {f : α → Build ε γ} {xs : List α} (h : ∀ x ∈ xs, (f x).Makes Q) :
    Makes (xs.mapM f) fun ys => ∀ y ∈ ys, Q y := by
  induction xs with
  | nil => exact makes_pure (by simp)
  | cons x xs ih =>
    rw [List.mapM_cons]
    refine (h x (by simp)).bind fun y hy => ?_
    refine (ih fun z hz => h z (by simp [hz])).bind fun ys hys => ?_
    exact makes_pure (List.forall_mem_cons.mpr ⟨hy, hys⟩)

theorem makes_fail {error : ε} : Makes (fail error : Build ε α) P := by
  intro next a next' ha
  cases ha

/-- A new node is well-formed when it keeps the rule on shapes and its operands are well-formed. -/
theorem makes_node {op : Op} {s : Shape} {args : List Expr} (ht : op.Typed (args.map Expr.shape) s)
    (hargs : ∀ a ∈ args, a.WellFormed) : Makes (node op s args : Build ε Expr) Expr.WellFormed := by
  intro next e next' he
  cases he
  exact Expr.wellFormed_node.mpr ⟨ht, hargs⟩

end Build

open Build

/-- A well-formed expression that stands for a word. -/
structure Expr.IsWellFormedWord (e : Expr) : Prop where
  wellFormed : e.WellFormed
  shape : e.shape = .word e.width

/-- What is given as an operand is well-formed if it is an expression. -/
def Operand.WellFormed (x : Operand) : Prop := ∀ e, x = .expr e → e.WellFormed

theorem makes_widthOf (place : Place) (given : Datum) :
    Makes (liftM (widthOf place given) : Build ShapeError Nat) fun w => 0 < w := by
  refine makes_lift fun w h => ?_
  unfold widthOf at h
  split at h
  · next n hn =>
    cases h
    exact (Datum.positive?_eq_some hn).2
  · cases h

namespace Operand

theorem isWellFormedWord_of_word {place : Place} {x : Operand} {e : Expr} (hx : x.WellFormed)
    (h : x.word place = .ok e) : e.IsWellFormedWord := by
  obtain ⟨hexpr, hword⟩ := word_eq_ok h
  exact ⟨hx e hexpr, Expr.isWord_iff.mp hword⟩

theorem makes_word (place : Place) {x : Operand} (hx : x.WellFormed) :
    Makes (liftM (x.word place) : Build ShapeError Expr) Expr.IsWellFormedWord :=
  makes_lift fun _ h => isWellFormedWord_of_word hx h

theorem words_spec {place : Place} {xs : List Operand} {es : List Expr}
    (hxs : ∀ x ∈ xs, x.WellFormed) (h : words place xs = .ok es) :
    (∀ e ∈ es, e.IsWellFormedWord) ∧ es.length = xs.length := by
  induction xs generalizing es with
  | nil =>
    cases h
    simp
  | cons x xs ih =>
    obtain ⟨e, he, h⟩ := bind_eq_ok h
    obtain ⟨rest, hrest, hes⟩ := bind_eq_ok h
    cases hes
    obtain ⟨hall, hlen⟩ := ih (fun y hy => hxs y (by simp [hy])) hrest
    have hword := isWellFormedWord_of_word (hxs x (by simp)) he
    refine ⟨fun y hy => ?_, by simp [hlen]⟩
    rcases List.mem_cons.mp hy with rfl | hy
    · exact hword
    · exact hall y hy

end Operand

theorem Expr.map_shape_of_words {es : List Expr} (h : ∀ e ∈ es, e.IsWellFormedWord) :
    es.map Expr.shape = (es.map Expr.width).map .word := by
  rw [List.map_map]
  exact List.map_congr_left fun e he => (h e he).shape

namespace Checked

theorem makes_const (width : Datum) (value : Int) :
    Makes (const width value) Expr.WellFormed := by
  refine (makes_widthOf _ _).bind fun w hw => ?_
  split
  · refine makes_node (.const hw ?_) (by simp)
    have hpos := twoPow_pos w
    have hlt := Int.emod_lt_of_pos value (b := twoPow w) (by omega)
    omega
  · exact makes_fail

theorem makes_var (name : String) (width : Datum) : Makes (var name width) Expr.WellFormed :=
  (makes_widthOf _ _).bind fun _ hw => makes_node (.var hw) (by simp)

theorem makes_hole (width : Datum) (name : Option String) :
    Makes (hole width name) Expr.WellFormed := by
  refine (makes_widthOf _ _).bind fun w hw => ?_
  intro next e next' he
  cases he
  exact Expr.wellFormed_hole.mpr hw

theorem makes_extract (lo hi : Int) {x : Operand} (hx : x.WellFormed) :
    Makes (extract lo hi x) Expr.WellFormed := by
  refine (Operand.makes_word _ hx).bind fun e he => ?_
  split
  · next hrange =>
    refine makes_node ?_ (by simpa using he.wellFormed)
    rw [List.map_singleton, he.shape]
    exact .extract (by omega) (by omega)
  · exact makes_fail

theorem totalWidth_eq_sum (parts : List Expr) :
    totalWidth parts = (parts.map Expr.width).sum := by
  induction parts with
  | nil => rfl
  | cons e parts ih =>
    rw [List.map_cons, List.sum_cons, ← ih]
    rfl

theorem makes_concat {xs : List Operand} (hxs : ∀ x ∈ xs, x.WellFormed) :
    Makes (concat xs) Expr.WellFormed := by
  unfold concat
  split
  · exact makes_fail
  · next hne =>
    refine (makes_lift fun es h => Operand.words_spec hxs h).bind fun es ⟨hes, hlen⟩ => ?_
    refine makes_node ?_ fun e he => (hes e he).wellFormed
    rw [Expr.map_shape_of_words hes, totalWidth_eq_sum]
    refine .concat fun hnil => hne ?_
    rw [List.map_eq_nil_iff] at hnil
    rw [List.isEmpty_iff_length_eq_zero, ← hlen, hnil]
    rfl

theorem makes_zeroExtend {x : Operand} (hx : x.WellFormed) (width : Datum) :
    Makes (zeroExtend x width) Expr.WellFormed := by
  refine (Operand.makes_word _ hx).bind fun e he => (makes_widthOf _ _).bind fun w _ => ?_
  split
  · exact makes_fail
  · refine makes_node ?_ (by simpa using he.wellFormed)
    rw [List.map_singleton, he.shape]
    exact .zeroExtend (by omega)

theorem makes_dupExtend {x : Operand} (hx : x.WellFormed) (width : Datum) :
    Makes (dupExtend x width) Expr.WellFormed := by
  refine (Operand.makes_word _ hx).bind fun e he => (makes_widthOf _ _).bind fun w _ => ?_
  split
  · exact makes_fail
  · refine makes_node ?_ (by simpa using he.wellFormed)
    rw [List.map_singleton, he.shape]
    exact .dupExtend (by omega)

/-- Items whose distinct widths are one have that width. -/
theorem exists_width_of_distinct {widths : List Nat} (h : (distinct widths).length = 1) :
    ∃ w, ∀ v ∈ widths, v = w := by
  obtain ⟨w, hw⟩ := List.length_eq_one_iff.mp h
  refine ⟨w, fun v hv => ?_⟩
  have hmem : v ∈ distinct widths := by
    rw [distinct, List.mem_mergeSort, List.mem_eraseDups]
    exact hv
  rw [hw] at hmem
  exact List.mem_singleton.mp hmem

theorem makes_list {xs : List Operand} (hxs : ∀ x ∈ xs, x.WellFormed) :
    Makes (list xs) Expr.WellFormed := by
  unfold list
  split
  · exact makes_fail
  · next hne =>
    refine (makes_lift fun es h => Operand.words_spec hxs h).bind fun es ⟨hes, hlen⟩ => ?_
    simp only
    split
    · next hone =>
      obtain ⟨w, hw⟩ := exists_width_of_distinct hone
      have hpos : 0 < es.length := by
        rw [hlen, List.length_pos_iff]
        simpa using hne
      have hhead : (es.map Expr.width).headD 0 = w := by
        obtain ⟨e, rest, rfl⟩ := List.exists_cons_of_length_pos hpos
        exact hw _ (by simp)
      refine makes_node ?_ fun e he => (hes e he).wellFormed
      have hshapes : es.map Expr.shape = List.replicate es.length (.word w) := by
        rw [List.eq_replicate_iff]
        refine ⟨by simp, fun s hs => ?_⟩
        obtain ⟨e, he, rfl⟩ := List.mem_map.mp hs
        rw [(hes e he).shape, hw _ (List.mem_map_of_mem he)]
      rw [hshapes, hhead]
      exact .list hpos
    · exact makes_fail

theorem toNat_positionOf {d : Datum} {i : Int} (h : d.number? = some i) :
    (positionOf d i.toNat).toNat = i.toNat := by
  cases d with
  | bool b =>
    cases h
    cases b <;> rfl
  | _ => rfl

theorem makes_item {x index : Operand} (hx : x.WellFormed) (hi : index.WellFormed) :
    Makes (item x index) Expr.WellFormed := by
  unfold item
  split
  · next e =>
    have he := hx e rfl
    split
    · next width length hshape =>
      split
      · split
        · next d i hd =>
          split
          · next hrange =>
            refine makes_node ?_ (by simpa using he)
            rw [List.map_singleton, hshape]
            refine .item ?_
            rw [toNat_positionOf hd]
            omega
          · exact makes_fail
        · exact makes_fail
      · refine (Operand.makes_word _ hi).bind fun i hword => ?_
        refine makes_node ?_ (by simpa using ⟨he, hword.wellFormed⟩)
        have hwidth : e.width = width := by simp [Expr.width, hshape, Shape.width?]
        rw [List.map_cons, List.map_singleton, hshape, hword.shape, hwidth]
        exact .lookup
    · exact makes_fail
  · exact makes_fail

/-- Names none of which is lost when repetitions are dropped are distinct. -/
theorem nodup_of_length_eraseDups {keys : List String} (h : keys.eraseDups.length = keys.length) :
    keys.Nodup := by
  have hsub : keys.eraseDups ⊆ keys := fun k hk => List.mem_eraseDups.mp hk
  have hperm := (List.subperm_of_subset (nodup_eraseDups keys) hsub).perm_of_length_le h.ge
  exact hperm.nodup_iff.mp (nodup_eraseDups keys)

/-- Named operands that are words are well-formed ones under their names. -/
theorem namedWords_spec {place : String → Place} {entries : List (String × Operand)}
    {fields : List (String × Expr)} (hx : ∀ p ∈ entries, p.2.WellFormed)
    (h : namedWords place entries = .ok fields) :
    fields.map (·.1) = entries.map (·.1) ∧ ∀ e ∈ fields.map (·.2), e.IsWellFormedWord := by
  induction entries generalizing fields with
  | nil =>
    cases h
    simp
  | cons p entries ih =>
    obtain ⟨e, he, h⟩ := bind_eq_ok h
    obtain ⟨rest, hrest, hfields⟩ := bind_eq_ok h
    cases hfields
    obtain ⟨hnames, hwords⟩ := ih (fun q hq => hx q (by simp [hq])) hrest
    have hword := Operand.isWellFormedWord_of_word (hx p (by simp)) he
    refine ⟨by simp [hnames], fun y hy => ?_⟩
    rw [List.map_cons, List.mem_cons] at hy
    rcases hy with rfl | hy
    · exact hword
    · exact hwords y hy

theorem makes_record {entries : List (String × Operand)}
    (hx : ∀ p ∈ entries, p.2.WellFormed) : Makes (record entries) Expr.WellFormed := by
  unfold record
  simp only
  split
  · next hkeys =>
    refine (makes_lift fun fields h => namedWords_spec hx h).bind fun fields ⟨hnames, hwords⟩ => ?_
    refine makes_node ?_ fun e he => (hwords e he).wellFormed
    have hgroup : fields.map (fun f => (f.1, f.2.width)) =
        (entries.map (·.1)).zip ((fields.map (·.2)).map Expr.width) := by
      rw [← hnames, List.map_map, List.zip_map']
      rfl
    rw [Expr.map_shape_of_words hwords, hgroup]
    refine .record (nodup_of_length_eraseDups hkeys) ?_
    rw [← hnames]
    simp
  · exact makes_fail

theorem outputWidths_pos {module : String} {outputs : List (String × Datum)}
    {declared : List (String × Nat)} (h : outputWidths module outputs = .ok declared) :
    ∀ o ∈ declared, 0 < o.2 := by
  induction outputs generalizing declared with
  | nil =>
    cases h
    simp
  | cons o outputs ih =>
    obtain ⟨w, hw, h⟩ := bind_eq_ok h
    obtain ⟨rest, hrest, hdeclared⟩ := bind_eq_ok h
    cases hdeclared
    have hpos := makes_widthOf (.result module o.1) o.2 0 w 0 (by rw [hw]; rfl)
    intro d hd
    rcases List.mem_cons.mp hd with rfl | hd
    · exact hpos
    · exact ih hrest d hd

theorem makes_primitive (module : String) {ports : List (String × Operand)}
    (outputs : List (String × Datum)) (hx : ∀ p ∈ ports, p.2.WellFormed) :
    Makes (primitive module ports outputs) Expr.WellFormed := by
  refine (makes_lift fun wired h => namedWords_spec hx h).bind fun wired ⟨_, hwords⟩ => ?_
  refine (makes_lift fun declared h => outputWidths_pos h).bind fun declared hpos => ?_
  refine makes_node ?_ fun e he => (hwords e he).wellFormed
  rw [Expr.map_shape_of_words hwords]
  exact .primitive (by simp) hpos

theorem makes_output {x : Operand} (hx : x.WellFormed) (key : String) :
    Makes (output x key) Expr.WellFormed := by
  unfold output
  split
  · next e =>
    split
    · next fields hshape =>
      split
      · next w hw =>
        refine makes_node ?_ (by simpa using hx e rfl)
        rw [List.map_singleton, hshape]
        exact .output hw
      · exact makes_fail
    · exact makes_fail
  · exact makes_fail

theorem makes_choose {a b selector : Operand} (ha : a.WellFormed) (hb : b.WellFormed) :
    Makes (choose a b selector) Expr.WellFormed := by
  refine (Operand.makes_word _ ha).bind fun x hx => (Operand.makes_word _ hb).bind fun y hy => ?_
  split
  · next hwidth =>
    split
    · next s =>
      split
      · next hs =>
        intro next e next' he
        cases he
        exact Expr.wellFormed_choose.mpr
          ⟨⟨hx.shape, hwidth ▸ hy.shape, hs⟩, hx.wellFormed, hy.wellFormed⟩
      · exact makes_fail
    · exact makes_fail
  · exact makes_fail

theorem makes_chooseNew {a b : Operand} (ha : a.WellFormed) (hb : b.WellFormed) :
    Makes (chooseNew a b) Expr.WellFormed :=
  Makes.bind (P := fun _ => True) (fun _ _ _ _ => trivial) fun _ _ => makes_choose ha hb

theorem makes_binary (name : String) {a b : Operand} (ha : a.WellFormed) (hb : b.WellFormed) :
    Makes (binary name a b) Expr.WellFormed := by
  unfold binary
  split
  · exact makes_fail
  · refine (Operand.makes_word _ ha).bind fun x hx =>
      (Operand.makes_word _ hb).bind fun y hy => ?_
    split
    · next hwidth =>
      refine makes_node ?_ (by simpa using ⟨hx.wellFormed, hy.wellFormed⟩)
      rw [List.map_cons, List.map_singleton, hx.shape, hy.shape, ← hwidth]
      exact .binary
    · exact makes_fail

theorem makes_unary (name : String) {a : Operand} (ha : a.WellFormed) :
    Makes (unary name a) Expr.WellFormed := by
  unfold unary
  split
  · exact makes_fail
  · refine (Operand.makes_word _ ha).bind fun x hx => ?_
    refine makes_node ?_ (by simpa using hx.wellFormed)
    rw [List.map_singleton, hx.shape]
    exact .unary

theorem makes_slice {x : Operand} (hx : x.WellFormed) (lo hi : Int) :
    Makes (slice x lo hi) Expr.WellFormed := by
  unfold slice
  split
  · next e =>
    split
    · exact makes_pure (hx e rfl)
    · exact makes_extract lo hi hx
  · exact makes_extract lo hi hx

theorem makes_bit {x : Operand} (hx : x.WellFormed) (i : Int) :
    Makes (bit x i) Expr.WellFormed := by
  unfold bit
  split
  · next e =>
    split
    · exact makes_pure (hx e rfl)
    · exact makes_extract i i hx
  · exact makes_extract i i hx

theorem makes_bits {x : Operand} (hx : x.WellFormed) :
    Makes (bits x) fun es => ∀ e ∈ es, e.WellFormed := by
  refine (Operand.makes_word _ hx).bind fun e he => makes_mapM fun i hi => ?_
  rw [List.mem_range] at hi
  unfold Build.bit
  split
  · exact makes_pure he.wellFormed
  · refine makes_node ?_ (by simpa using he.wellFormed)
    rw [List.map_singleton, he.shape]
    exact .extract le_rfl hi

theorem makes_concatBits {xs : List Operand} (hxs : ∀ x ∈ xs, x.WellFormed) :
    Makes (concatBits xs) Operand.WellFormed := by
  unfold concatBits
  split
  · exact makes_pure (hxs _ (by simp))
  · refine (makes_concat fun x hx => hxs x (List.mem_reverse.mp hx)).bind fun e he => ?_
    exact makes_pure fun f hf => Operand.expr.inj hf ▸ he

end Checked
end CircuitSketch
