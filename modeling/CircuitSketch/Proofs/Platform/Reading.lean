import CircuitSketch.Platform.Reading
import CircuitSketch.Proofs.Datum.JsonValue
import CircuitSketch.Proofs.Datum.Sorting
import CircuitSketch.Proofs.Lookup
import Mathlib.Data.List.Forall2

/-!
# What the readers of a platform accept

Each reader is described by the JSON values that it accepts and by what it makes of one. Where it
reads a value does not matter for that. The readers of an object read its entries one by one and
gather the faults of all of them, so an object is accepted exactly when all of its entries are.
-/
namespace CircuitSketch.Reading

open Datum (IsText)

variable {α β : Type}

theorem fault_ne_ok (path : List PathStep) (rule : Rule) (x : α) : fault path rule ≠ .ok x := by
  simp [fault]

theorem both_eq_ok {a : Reading α} {b : Reading β} {r : α × β} :
    both a b = .ok r ↔ a = .ok r.1 ∧ b = .ok r.2 := by
  obtain ⟨x, y⟩ := r
  cases a <;> cases b <;> simp [both]

theorem exists_both_iff {a : Reading α} {b : Reading β} :
    (∃ r, both a b = .ok r) ↔ (∃ x, a = .ok x) ∧ ∃ y, b = .ok y := by
  simp [both_eq_ok]

theorem map_eq_ok {a : Reading α} {f : α → β} {y : β} :
    a.map f = .ok y ↔ ∃ x, a = .ok x ∧ f x = y := by
  cases a <;> simp [Except.map]

theorem exists_map_iff {a : Reading α} {f : α → β} :
    (∃ y, a.map f = .ok y) ↔ ∃ x, a = .ok x := by
  simp [map_eq_ok]

/-- A reader accepts the JSON values that are allowed, and no other, and yields what they mean. -/
structure Reads (read : List PathStep → Datum → Reading α) (allowed : Datum → Prop)
    (means : Datum → α → Prop) : Prop where
  accepts : ∀ path {d : Datum}, d.IsJson → ((∃ x, read path d = .ok x) ↔ allowed d)
  yields : ∀ {path} {d : Datum} {x}, d.IsJson → read path d = .ok x → means d x

section Entries

variable {read : List PathStep → Datum → Reading α} {allowed : Datum → Prop}
  {means : Datum → α → Prop} {entries : List (Datum × Datum)} {path : List PathStep} {key : String}
  {default x : α}

/-- The value at a key is given, or else the default takes its place. -/
structure Gives (entries : List (Datum × Datum)) (key : String) (means : Datum → α → Prop)
    (default x : α) : Prop where
  given : ∀ d, (.text key, d) ∈ entries → means d x
  absent : (∀ d, (.text key, d) ∉ entries) → x = default

/-- What holds of the default and of all that is meant holds either way. -/
theorem Gives.elim {P : α → Prop} (h : Gives entries key means default x) (absent : P default)
    (given : ∀ d y, means d y → P y) : P x := by
  by_cases hd : ∃ d, (.text key, d) ∈ entries
  · obtain ⟨d, hd⟩ := hd
    exact given d x (h.given d hd)
  · rw [h.absent (not_exists.mp hd)]
    exact absent

variable (distinct : (entries.map (·.1)).Nodup) (values : ∀ e ∈ entries, e.2.IsJson)

include distinct values

theorem Reads.exists_required_iff (h : Reads read allowed means) :
    (∃ x, required read path entries key = .ok x) ↔
      (∃ d, (.text key, d) ∈ entries) ∧ ∀ d, (.text key, d) ∈ entries → allowed d := by
  simp only [← Datum.field?_eq_some_iff distinct, required]
  cases hfield : Datum.field? entries key with
  | none => simp [fault_ne_ok]
  | some d =>
    have hjson := values _ ((Datum.field?_eq_some_iff distinct).mp hfield)
    simp [h.accepts _ hjson]

theorem Reads.of_required (h : Reads read allowed means)
    (hx : required read path entries key = .ok x) :
    ∀ d, (.text key, d) ∈ entries → means d x := by
  intro d hd
  rw [required, (Datum.field?_eq_some_iff distinct).mpr hd] at hx
  exact h.yields (values _ hd) hx

theorem Reads.exists_optional_iff (h : Reads read allowed means) :
    (∃ x, optional read path entries key default = .ok x) ↔
      ∀ d, (.text key, d) ∈ entries → allowed d := by
  simp only [← Datum.field?_eq_some_iff distinct, optional]
  cases hfield : Datum.field? entries key with
  | none => simp
  | some d =>
    have hjson := values _ ((Datum.field?_eq_some_iff distinct).mp hfield)
    simp [h.accepts _ hjson]

theorem Reads.of_optional (h : Reads read allowed means)
    (hx : optional read path entries key default = .ok x) :
    Gives entries key means default x where
  given d hd := by
    rw [optional, (Datum.field?_eq_some_iff distinct).mpr hd] at hx
    exact h.yields (values _ hd) hx
  absent hnone := by
    rw [optional, (Datum.field?_eq_none_iff distinct).mpr hnone] at hx
    cases hx
    rfl

end Entries

/-- No keys are accepted but the expected ones. -/
theorem onlyKeys_iff {path : List PathStep} {entries : List (Datum × Datum)}
    {expected : List String} :
    (∃ u, onlyKeys path entries expected = .ok u) ↔
      ∀ e ∈ entries, ∃ name ∈ expected, e.1 = .text name := by
  have hnil (ds : List Datum) : ds.mergeSort listedBefore = [] ↔ ds = [] := by
    rw [← List.length_eq_zero_iff, List.length_mergeSort, List.length_eq_zero_iff]
  rw [onlyKeys]
  simp only
  split
  · next h =>
    rw [hnil, List.filter_eq_nil_iff] at h
    refine iff_of_true ⟨(), rfl⟩ fun e he => ?_
    have hkey := h e.1 (List.mem_map_of_mem he)
    generalize e.1 = key at hkey
    cases key <;> simp at hkey
    exact ⟨_, hkey, rfl⟩
  · next h =>
    refine iff_of_false (fun ⟨u, hu⟩ => fault_ne_ok _ _ u hu) fun hall => h ?_
    rw [hnil, List.filter_eq_nil_iff]
    intro key hkey
    obtain ⟨e, he, rfl⟩ := List.mem_map.mp hkey
    obtain ⟨name, hname, hkey⟩ := hall e he
    rw [hkey]
    simpa using hname

theorem points?_eq_some_iff {d : Datum} (json : d.IsJson) :
    (∃ ps, d.bare.points? = some ps) ↔ d.IsText := by
  rw [json.bare_eq]
  constructor
  · rintro ⟨ps, hps⟩
    cases json with
    | text text => exact text
    | _ => cases hps
  · intro text
    cases text <;> exact ⟨_, rfl⟩

theorem reads_text : Reads text IsText fun d s => ∀ t, d = .text t → s = t where
  accepts path d json := by
    rw [text, ← points?_eq_some_iff json]
    cases d.bare.points? <;> simp [fault_ne_ok]
  yields json h t ht := by
    subst ht
    have hs : Text.ofPoints (Text.points t) = _ := Except.ok.inj h
    rw [← hs, Text.ofPoints_points]

/-- A text out of a list of names is accepted if it is one of them. -/
theorem reads_named (choices : List (String × α)) :
    Reads (named choices) (fun d => ∃ name ∈ choices.map (·.1), d = .text name)
      fun d x => ∃ name, d = .text name ∧ (name, x) ∈ choices := by
  have hok {path : List PathStep} {d : Datum} {x : α} (json : d.IsJson) :
      named choices path d = .ok x ↔ ∃ name, d = .text name ∧ choices.lookup name = some x := by
    rw [named, json.bare_eq]
    cases json with
    | text text =>
      cases text with
      | text s =>
        simp only [Datum.points?, Text.ofPoints?_points, bind, Option.bind]
        cases hx : choices.lookup s <;> simp [hx, fault_ne_ok]
      | torn unpaired => simp [Datum.points?, unpaired, fault_ne_ok]
    | _ => simp [Datum.points?, fault_ne_ok]
  refine ⟨fun path d json => ?_, fun json h => ?_⟩
  · simp only [hok json]
    constructor
    · rintro ⟨x, name, rfl, hx⟩
      exact ⟨name, List.mem_map_of_mem (mem_of_lookup_eq_some hx), rfl⟩
    · rintro ⟨name, hname, rfl⟩
      cases hx : choices.lookup name with
      | none => exact absurd hname (lookup_eq_none_iff.mp hx)
      | some x => exact ⟨x, name, rfl, hx⟩
  · obtain ⟨name, hd, hx⟩ := (hok json).mp h
    exact ⟨name, hd, mem_of_lookup_eq_some hx⟩

/-- Among the JSON values only whole numbers are whole, and truth values are none. -/
theorem whole?_cases {d : Datum} (json : d.IsJson) :
    (∃ n, d = .int n ∧ whole? d = some (n, false)) ∨ (∀ n, d ≠ .int n) ∧ whole? d = none := by
  rw [whole?, json.bare_eq]
  cases json with
  | int n => exact .inl ⟨n, rfl, rfl⟩
  | fraction proper => exact .inr ⟨by simp, by simp [proper.2]⟩
  | text text => cases text <;> exact .inr ⟨by simp, rfl⟩
  | _ => exact .inr ⟨by simp, rfl⟩

/-- A size is a whole number within bounds. -/
theorem reads_lutSize : Reads lutSize (fun d => ∃ n, d = .int n ∧ 1 ≤ n ∧ n ≤ 8)
    fun d s => d = .int s.value ∧ s.count = .plain s.value where
  accepts path d json := by
    rcases whole?_cases json with ⟨n, rfl, hwhole⟩ | ⟨hne, hwhole⟩
    · rw [lutSize, hwhole]
      simp only
      split
      · simp [fault_ne_ok]
        omega
      · split
        · simp
          omega
        · simp [fault_ne_ok]
          omega
    · rw [lutSize, hwhole]
      simp [fault_ne_ok, hne]
  yields {path d s} json h := by
    rcases whole?_cases json with ⟨n, rfl, hwhole⟩ | ⟨-, hwhole⟩
    · rw [lutSize, hwhole] at h
      simp only at h
      split at h
      · cases h
      · split at h
        · cases h
          exact ⟨congrArg Datum.int (show n = (n.toNat : Int) by omega), rfl⟩
        · cases h
    · rw [lutSize, hwhole] at h
      cases h

/-- A block has a whole number of positions, at least one. -/
theorem reads_chunk : Reads chunk (fun d => ∃ n, d = .int n ∧ 1 ≤ n)
    fun d c => ∃ n : Nat, d = .int n ∧ c.1 = .plain n where
  accepts path d json := by
    rcases whole?_cases json with ⟨n, rfl, hwhole⟩ | ⟨hne, hwhole⟩
    · rw [chunk, hwhole]
      simp only
      split
      · simp
        omega
      · simp [fault_ne_ok]
        omega
    · rw [chunk, hwhole]
      simp [fault_ne_ok, hne]
  yields {path d c} json h := by
    rcases whole?_cases json with ⟨n, rfl, hwhole⟩ | ⟨-, hwhole⟩
    · rw [chunk, hwhole] at h
      simp only at h
      split at h
      · cases h
        exact ⟨n.toNat, congrArg Datum.int (by omega), rfl⟩
      · cases h
    · rw [chunk, hwhole] at h
      cases h

section Items

variable {read : List PathStep → Datum → Reading α} {allowed : Datum → Prop}
  {means : Datum → α → Prop} {path : List PathStep} {n : Nat} {ds : List Datum}

/-- A list is accepted when all of its items are. -/
theorem Reads.exists_items_iff (h : Reads read allowed means) (json : ∀ d ∈ ds, d.IsJson) :
    (∃ xs, items read path n ds = .ok xs) ↔ ∀ d ∈ ds, allowed d := by
  induction ds generalizing n with
  | nil => simp [items]
  | cons d ds ih =>
    rw [items, exists_map_iff, exists_both_iff, h.accepts _ (json d List.mem_cons_self),
      ih fun d hd => json d (List.mem_cons_of_mem _ hd), List.forall_mem_cons]

theorem Reads.of_items (h : Reads read allowed means) (json : ∀ d ∈ ds, d.IsJson) {xs : List α}
    (hxs : items read path n ds = .ok xs) : List.Forall₂ means ds xs := by
  induction ds generalizing n xs with
  | nil =>
    cases hxs
    exact .nil
  | cons d ds ih =>
    rw [items, map_eq_ok] at hxs
    obtain ⟨⟨x, rest⟩, hboth, rfl⟩ := hxs
    obtain ⟨hx, hrest⟩ := both_eq_ok.mp hboth
    exact .cons (h.yields (json d List.mem_cons_self) hx)
      (ih (fun d hd => json d (List.mem_cons_of_mem _ hd)) hrest)

end Items

end CircuitSketch.Reading
