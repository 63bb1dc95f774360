import CircuitSketch.Interface.Construct
import CircuitSketch.Proofs.Bits.Wiring
import CircuitSketch.Proofs.Expr.Building
import CircuitSketch.Proofs.Expr.Cutting

/-!
# Wiring the ports of a request

A request whose ports have the expected names is met exactly when every word has the expected width,
and then the words are wired in the order of the names. Wrong names are told before wrong widths.
-/
namespace CircuitSketch

theorem mapM_eq_ok {ε α γ : Type} {f : α → Except ε γ} {xs : List α} {ys : List γ} :
    xs.mapM f = .ok ys ↔ List.Forall₂ (fun x y => f x = .ok y) xs ys := by
  induction xs generalizing ys with
  | nil =>
    rw [List.forall₂_nil_left_iff, List.mapM_nil]
    exact ⟨fun h => (Except.ok.inj h).symm, fun h => congrArg Except.ok h.symm⟩
  | cons x xs ih =>
    rw [List.forall₂_cons_left_iff, List.mapM_cons]
    constructor
    · intro h
      obtain ⟨y, hy, h⟩ := bind_eq_ok h
      obtain ⟨rest, hrest, h⟩ := bind_eq_ok h
      cases h
      exact ⟨y, rest, hy, ih.mp hrest, rfl⟩
    · rintro ⟨y, rest, hy, hrest, rfl⟩
      rw [hy, ih.mpr hrest]
      rfl

theorem Text.sortedNames_nil : Text.sortedNames [] = [] := List.mergeSort_nil

theorem Text.isEmpty_sortedNames (names : List String) :
    (Text.sortedNames names).isEmpty = names.isEmpty := by
  cases names with
  | nil => rw [sortedNames_nil]
  | cons name rest =>
    have hne : sortedNames (name :: rest) ≠ [] := by
      refine List.ne_nil_of_length_pos ?_
      rw [sortedNames, List.length_mergeSort, List.eraseDups_cons, List.length_cons]
      omega
    simpa using hne

theorem isEmpty_filter_not {α : Type} (f : α → Bool) (xs : List α) :
    (xs.filter fun x => !f x).isEmpty = xs.all f := by
  induction xs with
  | nil => rfl
  | cons x xs ih => cases h : f x <;> simp [h, ih]

theorem Count.checkPlain_eq_ok {c : Count} {u : Unit} :
    c.checkPlain = .ok u ↔ c.pointed = false := by
  rw [checkPlain]
  cases c.pointed <;> simp

theorem Count.lift_checkPlain {c : Count} (plain : c.pointed = false) (next : Nat) :
    (liftM c.checkPlain : Build Refusal Unit) next = .ok ((), next) :=
  Build.lift_of_ok (checkPlain_eq_ok.mpr plain)

/-- What comes after a number that can be counted up to. -/
theorem Count.of_checkPlain {α : Type} {c : Count} {f : Unit → Build Refusal α} {a : α}
    {next last : Nat} (h : ((liftM c.checkPlain : Build Refusal Unit) >>= f) next = .ok (a, last)) :
    c.pointed = false ∧ f () next = .ok (a, last) := by
  obtain ⟨_, _, hcheck, h⟩ := Build.of_bind h
  obtain ⟨hplain, rfl⟩ := Build.of_lift hcheck
  exact ⟨checkPlain_eq_ok.mp hplain, h⟩

/-- A word of a width. -/
def Operand.isWord (width : Nat) : Operand → Bool
  | .expr e => e.shape = .word width
  | _ => false

namespace Request

theorem positive_eq_ok {r : Request} {name : String} {d : Datum} {n : Nat}
    (found : r.parameters.lookup name = some d) :
    r.positive name = .ok n ↔ d.positive? = some n := by
  rw [positive, found]
  simp only
  cases d.positive? <;> simp

theorem positive_count {r : Request} {name : String} {count n : Nat}
    (found : r.parameters.lookup name = some (.int count)) :
    r.positive name = .ok n ↔ n = count ∧ 1 ≤ count := by
  rw [positive_eq_ok found]
  by_cases h : 1 ≤ count
  · simp [Datum.positive?_int count h, h, eq_comm]
  · have hnone : Datum.positive? (.int count) = none := by
      rw [Datum.positive?, if_neg (by omega)]
    simp [hnone, h]

theorem one_le_of_positive {r : Request} {name : String} {n : Nat} (h : r.positive name = .ok n) :
    1 ≤ n := by
  unfold positive at h
  split at h
  · cases h
  · split at h
    · next hn =>
      cases h
      exact (Datum.positive?_eq_some hn).2
    · cases h

/-- Words under distinct names, and the widths expected of them. -/
theorem wire_eq_ok {r : Request} {names : List String} {xs ys : List Expr} {widths : List Nat}
    (nodup : names.Nodup) (hxs : names.length = xs.length) (hwidths : names.length = widths.length) :
    r.wire (names.zip (xs.map .expr)) (names.zip widths) = .ok ys ↔
      ys = xs ∧ xs.map Expr.shape = widths.map .word := by
  have hgiven : (names.zip (xs.map Operand.expr)).map (·.1) = names :=
    List.map_fst_zip (by simp [hxs])
  have hexpected : (names.zip widths).map (·.1) = names := List.map_fst_zip hwidths.le
  have hnone : (names.filter fun n => !names.contains n) = [] := by
    rw [List.filter_eq_nil_iff]
    intro n hn
    simp [hn]
  have hlookup : ∀ i (hi : i < names.length), (names.zip (xs.map Operand.expr)).lookup names[i] =
      some (.expr (xs.get ⟨i, hxs ▸ hi⟩)) := by
    intro i hi
    have hmem : (names[i], Operand.expr (xs.get ⟨i, hxs ▸ hi⟩)) ∈ names.zip (xs.map Operand.expr) :=
      List.mem_iff_getElem.mpr ⟨i, by simp [← hxs, hi], by simp⟩
    exact lookup_of_mem (by rwa [hgiven]) hmem
  rw [wire]
  simp only [hgiven, hexpected, hnone, Text.sortedNames_nil, List.isEmpty_nil, Bool.and_self,
    if_true]
  rw [mapM_eq_ok, List.forall₂_iff_get]
  simp only [List.length_zip, List.get_eq_getElem, List.getElem_zip]
  constructor
  · rintro ⟨hlen, hall⟩
    have hone : ∀ i (hi : i < names.length), ∃ hy : i < ys.length,
        (xs.get ⟨i, hxs ▸ hi⟩).shape = .word (widths.get ⟨i, hwidths ▸ hi⟩) ∧
          ys[i] = xs.get ⟨i, hxs ▸ hi⟩ := by
      intro i hi
      have hy : i < ys.length := by omega
      have h := hall i (by omega) hy
      simp only [hlookup i hi] at h
      split at h
      · next hs => exact ⟨hy, hs, (Except.ok.inj h).symm⟩
      · cases h
    constructor
    · refine List.ext_getElem (by omega) fun i h1 h2 => ?_
      exact (hone i (by omega)).2.2
    · refine List.ext_getElem (by simp; omega) fun i h1 h2 => ?_
      simp only [List.getElem_map]
      exact (hone i (by simpa [hxs] using h1)).2.1
  · rintro ⟨rfl, hshapes⟩
    refine ⟨by omega, fun i h1 h2 => ?_⟩
    have hi : i < names.length := by omega
    have hs := congrArg (fun l => l[i]?) hshapes
    simp only [List.getElem?_map, List.getElem?_eq_getElem h2,
      List.getElem?_eq_getElem (show i < widths.length by omega), Option.map_some,
      Option.some.injEq] at hs
    simp only [hlookup i hi, List.get_eq_getElem, if_pos hs]

/-- The expected ports and no others are wired. -/
def named (ports : List (String × Operand)) (expected : List (String × Nat)) : Bool :=
  (expected.map (·.1)).all (ports.map (·.1)).contains &&
    (ports.map (·.1)).all (expected.map (·.1)).contains

/-- Every expected port is wired to a word of its width. -/
def fitted (ports : List (String × Operand)) (expected : List (String × Nat)) : Bool :=
  expected.all fun e => (ports.lookup e.1).any (Operand.isWord e.2)

variable {r : Request} {ports : List (String × Operand)} {expected : List (String × Nat)}

theorem wire_of_not_named (h : named ports expected = false) :
    ∃ missing unexpected, r.wire ports expected = .error (.ports r missing unexpected) := by
  rw [wire]
  simp only [Text.isEmpty_sortedNames, isEmpty_filter_not]
  rw [named] at h
  rw [if_neg (by rw [h]; decide)]
  exact ⟨_, _, rfl⟩

/-- The word at an expected port. -/
def wireOne (r : Request) (ports : List (String × Operand)) (e : String × Nat) :
    Except Refusal Expr :=
  match ports.lookup e.1 with
  | some (.expr x) =>
    if x.shape = .word e.2 then .ok x else .error (.portWidth r e.1 e.2 x.shape.width?)
  | _ => .error (.portWidth r e.1 e.2 none)

theorem wire_of_named (h : named ports expected = true) :
    r.wire ports expected = expected.mapM (wireOne r ports) := by
  rw [wire]
  simp only [Text.isEmpty_sortedNames, isEmpty_filter_not]
  rw [named] at h
  rw [if_pos h]
  rfl

theorem wireOne_of_fitted {e : String × Nat} (h : (ports.lookup e.1).any (Operand.isWord e.2)) :
    ∃ x, wireOne r ports e = .ok x ∧ ports.lookup e.1 = some (.expr x) ∧ x.shape = .word e.2 := by
  cases ho : ports.lookup e.1 with
  | none => simp [ho] at h
  | some o =>
    cases o with
    | expr x =>
      have hshape : x.shape = .word e.2 := by simpa [ho, Operand.isWord] using h
      exact ⟨x, by rw [wireOne, ho]; exact if_pos hshape, rfl, hshape⟩
    | _ => simp [ho, Operand.isWord] at h

theorem wireOne_of_not_fitted {e : String × Nat}
    (h : (ports.lookup e.1).any (Operand.isWord e.2) = false) :
    ∃ actual, wireOne r ports e = .error (.portWidth r e.1 e.2 actual) := by
  rw [wireOne]
  cases ho : ports.lookup e.1 with
  | none => exact ⟨none, rfl⟩
  | some o =>
    cases o with
    | expr x =>
      have hshape : x.shape ≠ .word e.2 := by simpa [ho, Operand.isWord] using h
      exact ⟨_, if_neg hshape⟩
    | _ => exact ⟨none, rfl⟩

theorem wire_of_fitted (hnamed : named ports expected = true)
    (h : fitted ports expected = true) :
    ∃ words, r.wire ports expected = .ok words ∧ List.Forall₂
      (fun e x => ports.lookup e.1 = some (.expr x) ∧ x.shape = .word e.2) expected words := by
  rw [wire_of_named hnamed]
  simp only [mapM_eq_ok]
  clear hnamed
  induction expected with
  | nil => exact ⟨[], .nil, .nil⟩
  | cons e rest ih =>
    rw [fitted, List.all_cons, Bool.and_eq_true] at h
    obtain ⟨x, hx, hlookup⟩ := wireOne_of_fitted (r := r) h.1
    obtain ⟨words, hwords, hall⟩ := ih h.2
    exact ⟨x :: words, .cons hx hwords, .cons hlookup hall⟩

theorem wire_of_not_fitted (hnamed : named ports expected = true)
    (h : fitted ports expected = false) :
    ∃ port width actual, r.wire ports expected = .error (.portWidth r port width actual) := by
  rw [wire_of_named hnamed]
  clear hnamed
  induction expected with
  | nil => cases h
  | cons e rest ih =>
    rw [fitted, List.all_cons] at h
    rw [List.mapM_cons]
    cases he : (ports.lookup e.1).any (Operand.isWord e.2) with
    | false =>
      obtain ⟨actual, hactual⟩ := wireOne_of_not_fitted (r := r) he
      exact ⟨_, _, actual, by rw [hactual]; rfl⟩
    | true =>
      obtain ⟨x, hx, -⟩ := wireOne_of_fitted (r := r) he
      rw [he, Bool.true_and] at h
      obtain ⟨port, width, actual, hrest⟩ := ih h
      exact ⟨port, width, actual, by rw [hx, hrest]; rfl⟩

/-- What is wired are words of the expected widths. -/
theorem forall₂_of_wire {words : List Expr} (h : r.wire ports expected = .ok words) :
    List.Forall₂ (fun e x => ports.lookup e.1 = some (.expr x) ∧ x.shape = .word e.2) expected
      words := by
  cases hnamed : named ports expected with
  | false =>
    obtain ⟨_, _, hfail⟩ := wire_of_not_named (r := r) hnamed
    rw [hfail] at h
    cases h
  | true =>
    cases hfitted : fitted ports expected with
    | false =>
      obtain ⟨_, _, _, hfail⟩ := wire_of_not_fitted (r := r) hnamed hfitted
      rw [hfail] at h
      cases h
    | true =>
      obtain ⟨words', hwords, hall⟩ := wire_of_fitted (r := r) hnamed hfitted
      rw [hwords] at h
      cases h
      exact hall

/-- Ports are wired to words if they have the expected names and the words the expected widths. -/
theorem wire_eq_ok_iff {words : List Expr} : r.wire ports expected = .ok words ↔
    named ports expected = true ∧ List.Forall₂
      (fun e x => ports.lookup e.1 = some (.expr x) ∧ x.shape = .word e.2) expected words := by
  constructor
  · intro h
    refine ⟨?_, forall₂_of_wire h⟩
    by_contra hnamed
    obtain ⟨_, _, hfail⟩ := wire_of_not_named (r := r) (Bool.eq_false_iff.mpr hnamed)
    rw [hfail] at h
    cases h
  · rintro ⟨hnamed, hall⟩
    rw [wire_of_named hnamed, mapM_eq_ok]
    refine hall.imp fun e x ⟨hlookup, hshape⟩ => ?_
    rw [wireOne, hlookup]
    exact if_pos hshape

/-- The ports of a request may be named in any order. -/
theorem wire_of_perm {ports' : List (String × Operand)} {words : List Expr}
    (perm : ports.Perm ports') (nodup : (ports'.map (·.1)).Nodup)
    (h : r.wire ports' expected = .ok words) : r.wire ports expected = .ok words := by
  obtain ⟨hnamed, hall⟩ := wire_eq_ok_iff.mp h
  have hnames : (ports.map (·.1)).Perm (ports'.map (·.1)) := perm.map (·.1)
  refine wire_eq_ok_iff.mpr ⟨?_, hall.imp fun e x ⟨hlookup, hshape⟩ => ⟨?_, hshape⟩⟩
  · simp only [named, List.all_eq_true, Bool.and_eq_true, List.contains_iff_mem,
      hnames.mem_iff] at hnamed ⊢
    exact hnamed
  · have hmem := perm.mem_iff.mpr (mem_of_lookup_eq_some hlookup)
    exact lookup_of_mem (hnames.nodup_iff.mpr nodup) hmem

end Request

/-- Words under the names of inputs. -/
theorem Platform.numberedPorts_eq (xs : List Expr) :
    numberedPorts xs =
      ((List.range xs.length).map Primitive.inputName).zip (xs.map Operand.expr) := by
  rw [numberedPorts]
  refine List.ext_getElem (by simp) fun i h1 h2 => ?_
  simp [Primitive.inputName]

theorem inputPorts_eq (count : Nat) :
    inputPorts count =
      ((List.range count).map Primitive.inputName).zip (List.replicate count 1) := by
  rw [inputPorts]
  refine List.ext_getElem (by simp) fun i h1 h2 => ?_
  simp [Primitive.inputName]

theorem Platform.nodup_inputNames (count : Nat) :
    ((List.range count).map Primitive.inputName).Nodup :=
  List.nodup_range.map Primitive.inputName_injective

theorem Platform.map_fst_numberedPorts (xs : List Expr) :
    (numberedPorts xs).map (·.1) = (List.range xs.length).map Primitive.inputName := by
  rw [numberedPorts_eq]
  exact List.map_fst_zip (by simp)

/-- Single bits on the inputs of a request. -/
theorem Request.wire_numberedPorts {r : Request} {xs ys : List Expr} :
    r.wire (Platform.numberedPorts xs) (inputPorts xs.length) = .ok ys ↔
      ys = xs ∧ ∀ x ∈ xs, x.shape = .word 1 := by
  rw [Platform.numberedPorts_eq, inputPorts_eq,
    Request.wire_eq_ok (Platform.nodup_inputNames _) (by simp) (by simp)]
  refine and_congr_right fun _ => ?_
  rw [List.map_replicate, List.eq_replicate_iff]
  simp

/-- In whatever order single bits are given under the names of the inputs, they are wired in the
order of the inputs. -/
theorem Request.wire_numberedPorts_of_perm {r : Request} {ports : List (String × Operand)}
    {xs : List Expr} (hports : ports.Perm (Platform.numberedPorts xs))
    (bits : ∀ x ∈ xs, x.shape = .word 1) : r.wire ports (inputPorts xs.length) = .ok xs := by
  refine Request.wire_of_perm hports ?_ (Request.wire_numberedPorts.mpr ⟨rfl, bits⟩)
  rw [Platform.map_fst_numberedPorts]
  exact Platform.nodup_inputNames _

end CircuitSketch
